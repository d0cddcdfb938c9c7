import Xv6.Kernel.Protection
import Xv6.Kernel.Resources
import Xv6.Lib.Solo

namespace Xv6.Kernel

open Lib Vm Prog

/-! ### How large a process can be -/

section Size

variable {sys : Sys} {strict : Prop} {s : Shared} {l : Local} {rest : Tokens} {t : TableRef} {pt : PageTable} {n sz p tf : ℕ}

theorem mapped_le_card (hnodup : pt.pages.Nodup) (hle : n * pgSize ≤ Vm.trapframe)
    (hmapped : ∀ va < n * pgSize, pt.leaf va ≠ none) : n ≤ pt.pages.card := by
  let frame (i : ℕ) : ℕ := (pt.leaf (i * pgSize)).elim 0 Pte.pa
  have hframe : ∀ i < n, i * pgSize < Vm.trapframe ∧ ∃ pte, pt.leaf (i * pgSize) = some pte ∧ frame i = pte.pa := by
    intro i hi
    have hlt : i * pgSize < n * pgSize := Nat.mul_lt_mul_of_pos_right hi (by decide)
    obtain ⟨pte, hpte⟩ := Option.ne_none_iff_exists'.mp (hmapped _ hlt)
    refine ⟨hlt.trans_le hle, pte, hpte, ?_⟩
    simp only [frame, hpte, Option.elim_some]
  have hinto : ∀ i ∈ Finset.range n, frame i ∈ pt.pages.toFinset := by
    intro i hi
    obtain ⟨hlt, pte, hpte, heq⟩ := hframe i (Finset.mem_range.mp hi)
    rw [heq, Multiset.mem_toFinset]
    exact PageTable.pa_mem_pages hpte hlt
  have hinj : Set.InjOn frame (Finset.range n) := by
    intro i hi j hj hij
    obtain ⟨hi', pte, hpte, heq⟩ := hframe i (Finset.mem_range.mp hi)
    obtain ⟨hj', pte', hpte', heq'⟩ := hframe j (Finset.mem_range.mp hj)
    have hdiv := leaf_inj hnodup hpte hpte' hi' hj' (by rw [← heq, hij, heq'])
    rwa [Nat.mul_div_cancel _ (by decide), Nat.mul_div_cancel _ (by decide)] at hdiv
  calc n = (Finset.range n).card := (Finset.card_range n).symm
    _ ≤ pt.pages.toFinset.card := Finset.card_le_card_of_injOn frame hinto hinj
    _ ≤ pt.pages.card := Multiset.toFinset_card_le _

theorem KInv.table_le_pool (h : KInv sys strict s (l.tokens + rest)) (ht : l.table t = some pt) :
    pt.pages ≤ sys.pool.val :=
  (pages_le_tokens ht).trans ((Multiset.le_add_right _ _).trans h.le_pool)

theorem KInv.size_le (h : KInv sys strict s (l.tokens + rest)) (ht : l.table t = some pt) (hsz : sz ≤ Vm.trapframe)
    (hmapped : ∀ va < pgRoundUp sz, pt.leaf va ≠ none) : sz ≤ (physTop - sys.endPage) * pgSize := by
  have hpool := h.table_le_pool ht
  have hround := pgRoundUp_eq (hsz.trans (by decide))
  have hmod := pgRoundUp_mod sz
  have hmul : pgRoundUp sz / pgSize * pgSize = pgRoundUp sz := by
    simp only [pgSize] at *
    omega
  have hcard : pgRoundUp sz / pgSize ≤ pt.pages.card := by
    apply mapped_le_card (Multiset.nodup_of_le hpool sys.pool.nodup)
    · rw [hmul]
      exact pgRoundUp_le_trapframe hsz
    · rwa [hmul]
  have hcards : pt.pages.card ≤ physTop - sys.endPage := by
    apply (Multiset.card_le_card hpool).trans_eq
    exact Nat.card_Ico _ _
  have := Nat.mul_le_mul_right pgSize (hcard.trans hcards)
  omega

theorem KInv.not_free (h : KInv sys strict s (l.tokens + rest)) (hp : p ∈ l.tokens.1) : p ∉ s.freelist := by
  intro hfree
  have hnodup : (l.tokens + rest + s.parked).1 + ↑s.freelist + sys.pipePages s + sys.kernelPages = sys.pool.val :=
    h.balanced.pages
  have hle : l.tokens.1 + ↑s.freelist ≤ sys.pool.val := by
    rw [← hnodup]
    simp only [Prod.fst_add]
    rw [show ∀ a b c d e f : Multiset ℕ, a + b + c + d + e + f = a + d + (b + c + e + f) from fun _ _ _ _ _ _ => by abel]
    exact Multiset.le_add_right _ _
  have hdisj := (Multiset.nodup_add.mp (Multiset.nodup_of_le hle sys.pool.nodup)).2.2
  exact Multiset.disjoint_left.mp hdisj hp hfree

theorem trapframe_mem_tokens (h : l.proc.trapframe = some tf) : tf ∈ l.tokens.1 := by
  simp only [Local.tokens, Proc.tokens, h, Option.elim_some, Prod.fst_add, Multiset.mem_add]
  simp [ofPages]

theorem pages_mem_tokens (h : p ∈ l.pages) : p ∈ l.tokens.1 := by
  simp only [Local.tokens, Prod.fst_add, Multiset.mem_add]
  simp [ofPages, h]

theorem KInv.not_mem_pages (h : KInv sys strict s (l.tokens + rest)) (ht : l.table t = some pt)
    (hp : p ∈ (l.setTable t none).tokens.1) : p ∉ pt.pages := by
  have hsum := congrArg Prod.fst (tokens_setTable (o := none) ht)
  simp only [tablePages, ofPages, Option.elim_none, Prod.fst_add, add_zero] at hsum
  have hle : l.tokens.1 ≤ sys.pool.val := (Multiset.le_add_right _ _).trans h.le_pool
  have hnodup := Multiset.nodup_of_le hle sys.pool.nodup
  rw [← hsum] at hnodup
  exact Multiset.disjoint_left.mp (Multiset.nodup_add.mp hnodup).2.2 hp

end Size

/-! ### Freeing the memory of a process -/

def Mild (f : Local → Local) : Prop := ∀ l, (f l).proc.vmas = l.proc.vmas ∧ (f l).proc.trapframe = l.proc.trapframe

def MayHold (I : KState → Prop) (k : Fin nVma) (v : Vma) : Prop := ∃ x, I x ∧ x.2.proc.vmas k = some v

structure Steady (sys : Sys) (I : KState → Prop) : Prop where
  free : ∀ x page drop, Mild drop → I x → I (x.1.free page, drop x.2)
  edit : ∀ x f, Mild f → I x → I (x.1, f x.2)
  fs : ∀ x fs, I x → I ({ x.1 with fs := fs }, x.2)
  close : ∀ k v, MayHold I k v →
    Preserves I (fileclose sys v.file (·.mapProc (·.setVma k none))) (fun _ => True)
  trim : ∀ x k v u, I x → MayHold I k v → u.file = v.file → I (x.1, x.2.mapProc (·.setVma k (some u)))

section Steady

variable {sys : Sys} {I : KState → Prop} {t : TableRef} {va page n : ℕ} {drop : Local → Local} {v : Vma}

theorem mild_setTable (o : Local → Option PageTable) : Mild (fun l => l.setTable t (o l)) := by
  intro l
  cases t <;> exact ⟨rfl, rfl⟩

theorem mild_mapTable (f : PageTable → PageTable) : Mild (fun l => l.mapTable t f) :=
  mild_setTable (fun l => (l.table t).map f)

theorem preserves_fsStep {α : Type} {m : KState → Fs.FsM α} (h : ∀ x fs, I x → I ({ x.1 with fs := fs }, x.2)) :
    Preserves I (fsStep m) (fun _ => True) := by
  apply Preserves.step
  intro x a y hx hy
  dsimp only at hy
  cases hm : m x x.1.fs with
  | ok r =>
    rw [hm] at hy
    cases hy
    exact ⟨h x _ hx, trivial⟩
  | error e =>
    rw [hm] at hy
    cases hy

namespace Steady

theorem kfree (h : Steady sys I) (hdrop : Mild drop) : Preserves I (kfree sys page drop) (fun _ => True) := by
  apply Preserves.ite
  · intro _
    apply Preserves.modify
    exact fun x hx => h.free x page drop hdrop hx
  · exact fun _ => .fail

theorem unmapLoop {doFree : Bool} (h : Steady sys I) : Preserves I (unmapLoop sys t doFree n va) (fun _ => True) := by
  induction n generalizing va with
  | zero => exact .pure trivial
  | succ n ih =>
    unfold Kernel.unmapLoop
    apply keeps_walk.bind
    intro found _
    apply Preserves.ite
    · intro _
      apply (keeps_pteAt (R := fun _ => True) (fun _ _ => trivial)).bind
      intro o _
      cases o with
      | none => exact .fail
      | some pte =>
        apply Preserves.bind (R := fun _ => True)
        · apply Preserves.ite
          · exact fun _ => h.kfree (mild_mapTable _)
          · intro _
            apply Preserves.modify
            exact fun x hx => h.edit x _ (mild_mapTable _) hx
        · exact fun _ _ => ih
    · exact fun _ => .fail

theorem uvmunmap {doFree : Bool} (h : Steady sys I) : Preserves I (uvmunmap sys t va n doFree) (fun _ => True) :=
  .ite (fun _ => .fail) (fun _ => h.unmapLoop)

theorem table : Preserves I (table t) (fun _ => True) := .read (fun _ _ => trivial)

theorem freewalk0 (h : Steady sys I) : Preserves I (freewalk0 sys t va) (fun _ => True) := by
  apply table.bind
  intro pt _
  split
  · exact .pure trivial
  · apply Preserves.ite
    · exact fun _ => .fail
    · exact fun _ => h.kfree (mild_mapTable _)

theorem freewalk1 {i : Fin 512} (h : Steady sys I) : Preserves I (freewalk1 sys t i) (fun _ => True) := by
  apply table.bind
  intro pt _
  split
  · exact .pure trivial
  · apply (Preserves.forM (fun j _ => h.freewalk0)).bind
    exact fun _ _ => h.kfree (mild_mapTable _)

theorem freewalk (h : Steady sys I) : Preserves I (freewalk sys t) (fun _ => True) := by
  apply (Preserves.forM (fun i _ => h.freewalk1)).bind
  intro _ _
  apply table.bind
  exact fun _ _ => h.kfree (mild_setTable _)

theorem procFreepagetable {sz : ℕ} (h : Steady sys I) : Preserves I (procFreepagetable sys t sz) (fun _ => True) := by
  apply h.uvmunmap.bind
  intro _ _
  apply h.uvmunmap.bind
  intro _ _
  apply Preserves.bind (R := fun _ => True)
  · exact .ite (fun _ => h.uvmunmap) (fun _ => .pure trivial)
  · exact fun _ _ => h.freewalk

theorem writeBack (h : Steady sys I) : Preserves I (writeBack sys v va page) (fun _ => True) := by
  apply Preserves.bind (R := fun _ => True) (.read (fun _ _ => trivial))
  intro ip _
  apply (preserves_fsStep h.fs).bind
  intro _ _
  apply (preserves_fsStep h.fs).bind
  exact fun _ _ => .pure trivial

theorem vmaUnmapLoop {error : ℤ} (h : Steady sys I) : Preserves I (vmaUnmapLoop sys v n va error) (fun _ => True) := by
  induction n generalizing va error with
  | zero => exact .pure trivial
  | succ n ih =>
    unfold Kernel.vmaUnmapLoop
    apply keeps_walk.bind
    intro found _
    apply (keeps_pteAt (R := fun _ => True) (fun _ _ => trivial)).bind
    intro o _
    have hdone : ∀ written : Bool, Preserves I (do
        Kernel.uvmunmap sys .own va 1 true
        Kernel.vmaUnmapLoop sys v n (va + pgSize) (if written then error else -1)) (fun _ => True) := by
      intro written
      exact h.uvmunmap.bind (fun _ _ => ih)
    split
    · apply Preserves.ite
      · intro _
        exact h.writeBack.bind (fun written _ => hdone written)
      · exact fun _ => hdone true
    · exact ih

theorem vmaUnmap {length : ℕ} (h : Steady sys I) : Preserves I (vmaUnmap sys va length) (fun _ => True) := by
  have hput : ∀ (k : Fin nVma) (v u : Vma), MayHold I k v → u.file = v.file →
      Preserves I (modifyLocal (·.mapProc (·.setVma k (some u)))) (fun _ => True) := by
    intro k v u hv hu
    apply Preserves.modify
    exact fun x hx => h.trim x k v u hx hv hu
  apply Preserves.ite
  · exact fun _ => .pure trivial
  intro _
  apply Preserves.ite
  · exact fun _ => .pure trivial
  intro _
  apply Preserves.bind (R := fun p => ∀ k v, p.vmas k = some v → MayHold I k v)
    (.read (fun x hx k v hk => ⟨x, hx, hk⟩))
  intro p hp
  split
  · exact .pure trivial
  next k v hfind =>
  have hv := hp k v (findVma_eq hfind).1
  apply Preserves.ite
  · exact fun _ => .pure trivial
  intro _
  apply h.vmaUnmapLoop.bind
  intro error _
  apply Preserves.bind (R := fun _ => True)
  · apply Preserves.ite
    · exact fun _ => h.close k v hv
    · intro _
      exact .ite (fun _ => hput k v _ hv rfl) (fun _ => hput k v _ hv rfl)
  · exact fun _ _ => .pure trivial

theorem vmaUnmapAll (h : Steady sys I) : Preserves I (vmaUnmapAll sys) (fun _ => True) := by
  apply Preserves.forM
  intro k _
  apply Preserves.bind (R := fun _ => True) (.read (fun _ _ => trivial))
  intro p _
  split
  · apply h.vmaUnmap.bind
    exact fun _ _ => .pure trivial
  · exact .pure trivial

end Steady

end Steady

structure Quiet (s₀ : Shared) (x : KState) : Prop where
  pipes : x.1.pipes = s₀.pipes
  procs : x.1.procs = s₀.procs
  types : ∀ f, 1 ≤ (x.1.ftable f).ref → (x.1.ftable f).type = (s₀.ftable f).type
  mapped : ∀ k v, x.2.proc.vmas k = some v → (s₀.ftable v.file).type = .inode

section Quiet

variable {sys : Sys} {s₀ : Shared} {x y : KState} {drop : Local → Local}

theorem Quiet.of_eq (h : Quiet s₀ x) (hpipes : y.1.pipes = x.1.pipes) (hprocs : y.1.procs = x.1.procs)
    (hfiles : y.1.ftable = x.1.ftable) (hvmas : y.2.proc.vmas = x.2.proc.vmas) : Quiet s₀ y := by
  constructor
  · rw [hpipes, h.pipes]
  · rw [hprocs, h.procs]
  · rw [hfiles]
    exact h.types
  · rw [hvmas]
    exact h.mapped

theorem quiet_fileclose {f : Fin nFile} (htype : (s₀.ftable f).type = .inode)
    (hdrop : ∀ l k v, (drop l).proc.vmas k = some v → l.proc.vmas k = some v) :
    Preserves (Quiet s₀) (fileclose sys f drop) (fun _ => True) := by
  have hset : ∀ x : KState, ∀ file : File, Quiet s₀ x → (1 ≤ file.ref → file.type = .inode) →
      Quiet s₀ (x.1.setFile f file, drop x.2) := by
    intro x file hx hfile
    refine ⟨hx.pipes, hx.procs, fun g hg => ?_, fun k v hk => hx.mapped k v (hdrop x.2 k v hk)⟩
    by_cases hgf : g = f
    · subst hgf
      simp only [Shared.setFile, Function.update_self] at hg ⊢
      rw [hfile hg, htype]
    · simp only [Shared.setFile, Function.update_of_ne hgf] at hg ⊢
      exact hx.types g hg
  apply Preserves.bind (R := fun o => ∀ ff : File, o = some ff → ff.type = .inode)
  · apply Preserves.step
    intro x o y hx hy
    have hinode : 1 ≤ (x.1.ftable f).ref → (x.1.ftable f).type = .inode := by
      intro hpos
      rw [hx.types f hpos, htype]
    dsimp only at hy
    split_ifs at hy with hzero hmore hpipe
    · cases hy
      constructor
      · exact hset x _ hx (fun _ => hinode (by omega))
      · intro ff hff
        cases hff
    · rw [hinode (by omega)] at hpipe
      cases hpipe
    · cases hy
      constructor
      · exact hset x _ hx (fun hpos => absurd hpos (by simp))
      · intro ff hff
        cases hff
        exact hinode (by omega)
  · intro o ho
    cases o with
    | none => exact .pure trivial
    | some ff =>
      dsimp only
      rw [ho ff rfl]
      exact preserves_fsStep (fun x _ hx => hx.of_eq rfl rfl rfl rfl)

theorem Quiet.setVma (h : Quiet s₀ x) {k : Fin nVma} {o : Option Vma}
    (ho : ∀ u, o = some u → (s₀.ftable u.file).type = .inode) : Quiet s₀ (x.1, x.2.mapProc (·.setVma k o)) := by
  refine ⟨h.pipes, h.procs, h.types, fun j u hj => ?_⟩
  change Function.update x.2.proc.vmas k o j = some u at hj
  rw [Function.update_apply] at hj
  split_ifs at hj
  · exact ho u hj
  · exact h.mapped j u hj

theorem quiet_steady (s₀ : Shared) : Steady sys (Quiet s₀) := by
  refine ⟨fun x page drop hdrop hx => ?_, fun x f hf hx => ?_, fun x fs hx => ?_, fun k v hv => ?_, fun x k v u hx hv hu => ?_⟩
  · exact hx.of_eq rfl rfl rfl (hdrop x.2).1
  · exact hx.of_eq rfl rfl rfl (hf x.2).1
  · exact hx.of_eq rfl rfl rfl rfl
  · obtain ⟨x, hx, hk⟩ := hv
    apply quiet_fileclose (hx.mapped k v hk)
    intro l j u hj
    change Function.update l.proc.vmas k none j = some u at hj
    rw [Function.update_apply] at hj
    split_ifs at hj
    exact hj
  · obtain ⟨y, hy, hk⟩ := hv
    apply hx.setVma
    intro w hw
    cases hw
    rw [hu]
    exact hy.mapped k v hk

end Quiet

structure AddressSpace (p : Proc) (pt : PageTable) : Prop where
  table : p.pagetable = some pt
  trapframe : p.trapframe ≠ none
  framed : Framed pt
  le : p.sz ≤ Vm.trapframe
  mapped : ∀ va < pgRoundUp p.sz, pt.leaf va ≠ none
  covered : ∀ va, pgRoundUp p.sz ≤ va → va < Vm.trapframe → pt.leaf va ≠ none → ∃ k v, p.vmas k = some v ∧ v.Covers va
  vmas : VmasOk p.vmas
  above : ∀ k v, p.vmas k = some v → pgRoundUp p.sz ≤ v.addr

def teardown (sys : Sys) (sz : ℕ) : KM Unit := do
  vmaUnmapAll sys
  procFreepagetable sys .own sz

def Proc.mappingsOf (p : Proc) (f : Fin nFile) : ℕ :=
  (Finset.univ.filter (fun k => (p.vmas k).map (·.file) = some f)).card

def Proc.stripped (p : Proc) : Proc := { p with pagetable := none, vmas := fun _ => none }

section Teardown

variable {sys : Sys} {s : Shared} {l : Local} {rest : Tokens} {pt : PageTable} {p : Proc} {f : Fin nFile}

theorem AddressSpace.live (h : AddressSpace l.proc pt) (hs : KInv sys True s (l.tokens + rest)) : l.proc.Live True pt := by
  have hsize := hs.size_le (t := .own) h.table h.le h.mapped
  refine ⟨h.table, h.trapframe, h.framed, h.vmas, fun _ => ⟨?_, h.mapped, h.covered, h.above⟩⟩
  have hram : (physTop - sys.endPage) * pgSize ≤ physTop * pgSize := Nat.mul_le_mul_right _ (Nat.sub_le _ _)
  have : physTop * pgSize < 2 ^ 32 := by decide
  omega

theorem tokens_stripped (h : p.pagetable = some pt) :
    p.stripped.tokens + ofPages pt.pages + ∑ k, (p.vmas k).elim 0 (fun v => ofFiles {.map v.file}) = p.tokens := by
  have htable : tablePages p.pagetable = pt.pages := by
    rw [h]
    rfl
  have hnone : tablePages p.stripped.pagetable = 0 := rfl
  have hvmas : ∑ k, (p.stripped.vmas k).elim (0 : Tokens) (fun v => ofFiles {.map v.file}) = 0 :=
    Finset.sum_eq_zero (fun _ _ => rfl)
  rw [Proc.tokens, hvmas, hnone, Proc.tokens, htable]
  simp only [Proc.stripped, show ofPages 0 = 0 from rfl]
  abel

theorem refsTo_stripped : p.stripped.refsTo f + p.mappingsOf f = p.refsTo f := by
  have hnone : (Finset.univ.filter (fun k => (p.stripped.vmas k).map (·.file) = some f)).card = 0 := by
    simp [Proc.stripped]
  rw [Proc.refsTo, hnone, Proc.refsTo, Proc.mappingsOf]
  rfl

theorem wp_teardown {ok : Panic → Prop} (hfs : ∀ msg, ok (.fs msg)) (h : l.proc.Live True pt) :
    wp (ledger sys True) ok (teardown sys l.proc.sz) l (fun _ l' => l' = { l with proc := l.proc.stripped }) := by
  have lax : ¬ True → ∀ e, ok e := fun hn => absurd trivial hn
  rw [teardown, wp_bind]
  apply wp_vmaUnmapAll lax hfs h
  intro p' pt' hlive hkept hnone
  have hheap := hlive.heap trivial
  have hsz := hkept.sz
  have hle : l.proc.sz ≤ Vm.trapframe := by
    rw [← hsz]
    exact small_le_trapframe hheap.small
  apply wp_procFreepagetable lax (show Local.table { l with proc := p' } .own = some pt' from hlive.table) hlive.framed
  · intro _
    rw [← hsz] at hle ⊢
    exact ⟨hle, hheap.mapped⟩
  · intro _ va hlo hhi
    by_contra hne
    rw [← hsz] at hlo
    obtain ⟨k, v, hk, -⟩ := hheap.covered va hlo hhi hne
    rw [hnone k] at hk
    cases hk
  · have hvmas : p'.vmas = fun _ => none := funext hnone
    simp only [Local.setTable, Proc.stripped]
    rw [hvmas, hkept.sz, hkept.ofile, hkept.cwd, hkept.trapframe]

structure TornDown (sys : Sys) (s : Shared) (l : Local) (pt : PageTable) (y : KState) : Prop where
  local_eq : y.2 = { l with proc := l.proc.stripped }
  freelist : (y.1.freelist : Multiset ℕ) = s.freelist + pt.pages
  nodup : y.1.freelist.Nodup
  closed : ∀ f, (y.1.ftable f).ref + l.proc.mappingsOf f = (s.ftable f).ref
  trapframe : ∀ tf, l.proc.trapframe = some tf → tf ∉ y.1.freelist
  kernel : ∀ page, ¬ sys.InPool page → page ∉ y.1.freelist

theorem tornDown_of_kinv {y : KState} (h : l.proc.pagetable = some pt) (hs : KInv sys True s (l.tokens + rest))
    (hl : y.2 = { l with proc := l.proc.stripped }) (hy : KInv sys True y.1 (y.2.tokens + rest)) (hq : Quiet s y) :
    TornDown sys s l pt y := by
  have hparked : y.1.parked = s.parked := by simp only [Shared.parked, hq.procs]
  have hpipes : sys.pipePages y.1 = sys.pipePages s := by simp only [Sys.pipePages, hq.pipes]
  have htokens : y.2.tokens + ofPages pt.pages +
      ∑ k, (l.proc.vmas k).elim 0 (fun v => ofFiles {.map v.file}) = l.tokens := by
    rw [hl, Local.tokens, Local.tokens, ← tokens_stripped h]
    abel
  have hmaps : (∑ k, (l.proc.vmas k).elim (0 : Tokens) (fun v => ofFiles {.map v.file})).1 = 0 := by
    rw [Prod.fst_sum]
    apply Finset.sum_eq_zero
    intro k _
    cases l.proc.vmas k <;> rfl
  have hpages : y.2.tokens.1 + pt.pages = l.tokens.1 := by
    have := congrArg Prod.fst htokens
    rwa [Prod.fst_add, hmaps, add_zero] at this
  have hnew := hy.balanced.pages
  have hold := hs.balanced.pages
  rw [hparked, hpipes] at hnew
  simp only [Prod.fst_add] at hnew hold
  have hfree : (y.1.freelist : Multiset ℕ) = s.freelist + pt.pages := by
    rw [← hpages, ← hnew] at hold
    have hcancel : (↑y.1.freelist : Multiset ℕ) + (y.2.tokens.1 + rest.1 + s.parked.1 + sys.pipePages s + sys.kernelPages) =
        s.freelist + pt.pages + (y.2.tokens.1 + rest.1 + s.parked.1 + sys.pipePages s + sys.kernelPages) := by
      rw [show ∀ a b c d e f : Multiset ℕ, a + (b + c + d + e + f) = b + c + d + a + e + f from fun _ _ _ _ _ _ => by abel,
        ← hold]
      abel
    exact add_right_cancel hcancel
  have hnodup : (y.2.tokens.1 + rest.1 + s.parked.1 + ↑y.1.freelist + sys.pipePages s + sys.kernelPages).Nodup :=
    hnew ▸ sys.pool.nodup
  have hbelow : (y.2.tokens.1 + ↑y.1.freelist) ≤ y.2.tokens.1 + rest.1 + s.parked.1 + ↑y.1.freelist + sys.pipePages s + sys.kernelPages := by
    rw [show ∀ a b c d e f : Multiset ℕ, a + b + c + d + e + f = a + d + (b + c + e + f) from fun _ _ _ _ _ _ => by abel]
    exact Multiset.le_add_right _ _
  have hpair := Multiset.nodup_add.mp (Multiset.nodup_of_le hbelow hnodup)
  refine ⟨hl, hfree, Multiset.coe_nodup.mp hpair.2.1, fun f => ?_, fun tf htf hmem => ?_, fun page hpage hmem => ?_⟩
  · have hcy : (y.1.ftable f).ref = refCount (y.2.tokens + rest + y.1.parked).2.1 f := hy.balanced.files.count f
    have hcs : (s.ftable f).ref = refCount (l.tokens + rest + s.parked).2.1 f := hs.balanced.files.count f
    rw [hparked] at hcy
    simp only [Prod.snd_add, Prod.fst_add, refCount_add, Local.refCount_tokens] at hcy hcs
    rw [hl] at hcy
    have := refsTo_stripped (p := l.proc) (f := f)
    dsimp only at hcy
    omega
  · have hin : tf ∈ y.2.tokens.1 := by
      rw [hl]
      exact trapframe_mem_tokens htf
    exact hy.not_free hin hmem
  · apply hpage
    apply inPool_of_mem
    have hle : (↑y.1.freelist : Multiset ℕ) ≤ sys.pool.val := by
      rw [← hnew]
      exact (Multiset.le_add_left _ _).trans hbelow
    exact Multiset.mem_of_le hle hmem

def firstRun : KState :=
  ((bootShared bootFs).setSlot bootSys.initproc { (bootShared bootFs).procs bootSys.initproc with record := none },
    .holding bootSys.initproc bootProc)

theorem firstRun_kinv : KInv bootSys True firstRun.1 (firstRun.2.tokens + 0) := by
  have hbooted : Pool.Good (ledger bootSys True) (fun _ _ => True) (Rest True) (bootMachine bootFs) := (booted bootFs).good
  have hgood : KInv bootSys True (bootShared bootFs) (∑ i, ((bootMachine bootFs).locals i).tokens) := hbooted.ledger
  have hrun : wp (ledger bootSys True) (fun _ => True) (forkret bootSys.initproc) .idle
      (fun _ => Rest True bootSys.initproc) := forkret_spec
  have hidle : ∑ i, ((bootMachine bootFs).locals i).tokens = Local.idle.tokens + 0 := by
    rw [add_zero, Local.tokens_idle]
    exact Finset.sum_eq_zero (fun _ _ => Local.tokens_idle)
  rw [hidle] at hgood
  exact (post_of_wp hrun hgood).1

theorem firstRun_addressSpace : AddressSpace firstRun.2.proc bootTable := by
  have him := image_bootTable
  refine ⟨rfl, by decide, him.framed, by decide, him.mapped, fun va hlo hhi hne => absurd (him.bare va hlo hhi) hne, ?_, ?_⟩
  · constructor
    · intro k v hk
      cases hk
    · intro k k' v v' hk
      cases hk
  · intro k v hk
    cases hk

end Teardown

end Xv6.Kernel
