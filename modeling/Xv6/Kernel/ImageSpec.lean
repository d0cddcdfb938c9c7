import Xv6.Kernel.UvmSpec

namespace Xv6.Kernel

open Lib Vm Prog

variable {sys : Sys} {strict : Prop} {ok : Panic → Prop} {l : Local} {t : TableRef} {pt : PageTable} {va : ℕ}

theorem wp_walkaddr {Q : Option ℕ → Local → Prop} (h : l.table t = some pt) (hQ : ∀ o, Q o l) :
    wp (ledger sys strict) ok (walkaddr t va) l Q := by
  rw [walkaddr, wp_ite]
  split_ifs with hmax
  · exact hQ none
  · rw [wp_bind]
    refine wp_walk h (Or.inl (by omega)) (fun _ => ?_)
    rw [wp_ite]
    split_ifs
    · rw [wp_bind]
      refine wp_pteAt h (fun _ => ?_)
      cases pt.leaf va with
      | none => exact hQ none
      | some pte => exact hQ _
    · exact hQ none

theorem wp_copyoutLoop {src : ℕ → UInt8} {fuel dstva len tot : ℕ} {Q : Bool → Local → Prop}
    (h : l.table t = some pt) (hQ : ∀ b, Q b l) :
    wp (ledger sys strict) ok (copyoutLoop t src fuel dstva len tot) l Q := by
  induction fuel generalizing dstva len tot with
  | zero => exact hQ true
  | succ fuel ih =>
    rw [copyoutLoop, wp_ite]
    split_ifs
    · exact hQ true
    · rw [wp_bind]
      refine wp_walkaddr h (fun o => ?_)
      cases o with
      | none => exact hQ false
      | some pa =>
        rw [wp_bind]
        exact wp_fill ih

theorem wp_copyout {src : ℕ → UInt8} {dstva len : ℕ} {Q : Bool → Local → Prop} (h : l.table t = some pt)
    (hQ : ∀ b, Q b l) : wp (ledger sys strict) ok (copyout t dstva src len) l Q := wp_copyoutLoop h hQ

theorem wp_copyinLoop {fuel srcva len : ℕ} {acc : List UInt8} {Q : Option (List UInt8) → Local → Prop}
    (h : l.table t = some pt) (hQ : ∀ o, Q o l) :
    wp (ledger sys strict) ok (copyinLoop t fuel srcva len acc) l Q := by
  induction fuel generalizing srcva len acc with
  | zero => exact hQ _
  | succ fuel ih =>
    rw [copyinLoop, wp_ite]
    split_ifs
    · exact hQ _
    · rw [wp_bind]
      refine wp_walkaddr h (fun o => ?_)
      cases o with
      | none => exact hQ none
      | some pa =>
        rw [wp_bind]
        exact wp_read (fun _ _ _ => ih)

theorem wp_copyinstrLoop {fuel srcva max : ℕ} {acc : List UInt8} {Q : Option (List UInt8) → Local → Prop}
    (h : l.table t = some pt) (hQ : ∀ o, Q o l) :
    wp (ledger sys strict) ok (copyinstrLoop t fuel srcva max acc) l Q := by
  induction fuel generalizing srcva max acc with
  | zero => exact hQ none
  | succ fuel ih =>
    rw [copyinstrLoop, wp_ite]
    split_ifs
    · exact hQ none
    · rw [wp_bind]
      refine wp_walkaddr h (fun o => ?_)
      cases o with
      | none => exact hQ none
      | some pa =>
        rw [wp_bind]
        refine wp_read (fun _ _ _ => ?_)
        rw [wp_ite]
        split_ifs
        · exact hQ _
        · exact ih

theorem wp_uvmclear {Q : Unit → Local → Prop} (h : l.table t = some pt) (hva : va < maxVa)
    (hleaf : pt.leaf va ≠ none)
    (hQ : ∀ pt', (∀ a < 2 ^ 39, pt'.leaf a = none ↔ pt.leaf a = none) → pt'.pages = pt.pages →
      Q () (l.setTable t (some pt'))) : wp (ledger sys strict) ok (uvmclear t va) l Q := by
  obtain ⟨pte, hpte⟩ := Option.ne_none_iff_exists'.mp hleaf
  obtain ⟨n, hn⟩ := PageTable.node0_of_leaf hpte
  have hpages : (pt.setLeaf va (some { pte with u := false })).pages = pt.pages := by
    have hs := PageTable.pages_setLeaf (o := some { pte with u := false }) hn hva
    rw [hpte] at hs
    exact add_right_cancel hs
  rw [uvmclear, wp_bind]
  refine wp_walk h (Or.inl hva) (fun _ => ?_)
  rw [hn, Option.isSome_some, if_pos rfl]
  refine wp_modifyLocal ?_ ?_
  · rw [mapTable_eq h, hpte, Option.map_some, tokens_setTable_add (P := 0) h (by rw [hpages, add_zero])]
    exact add_zero _
  · rw [mapTable_eq h, hpte, Option.map_some]
    refine hQ _ (fun a ha => ?_) hpages
    rw [PageTable.leaf_setLeaf hn (hva.trans (by decide)) ha]
    split_ifs with hpage
    · rw [leaf_eq_of_div (hva.trans (by decide)) ha hpage, hpte]
      simp
    · rfl

theorem wp_unmapExtended {pt' : PageTable} {a : ℕ} {Q : Unit → Local → Prop} (lax : ¬ strict → ∀ e, ok e)
    (h : l.table t = some pt') (hx : Extended pt pt' 0 a) (ha : a % pgSize = 0)
    (hQ : ∀ pt'', (∀ va < 2 ^ 39, pt''.leaf va = pt.leaf va) → Q () (l.setTable t (some pt''))) :
    wp (ledger sys strict) ok (uvmunmap sys t 0 (a / pgSize) true) l Q := by
  have hend : 0 + a / pgSize * pgSize = a := by
    rw [Nat.zero_add, Nat.div_mul_cancel (Nat.dvd_of_mod_eq_zero ha)]
  refine wp_uvmunmap lax h rfl ?_ ?_ ?_
  · rw [hend]
    exact fun _ va h0 hlt => ⟨hlt.trans_le (hx.le.trans (by decide)), hx.inside va h0 hlt⟩
  · rw [hend]
    intro va _ hlt _ _
    simp only [true_iff]
    exact hlt.trans_le hx.le
  · rw [hend]
    exact fun pt'' hc => hQ pt'' (hx.cleared hc)

theorem wp_copyLoop {own pt' : PageTable} {n i : ℕ} {Q : Bool → Local → Prop} (lax : ¬ strict → ∀ e, ok e)
    (hown : l.table .own = some own) (h : l.table .child = some pt') (hx : Extended pt pt' 0 i)
    (hi : i % pgSize = 0) (htrap : pt.leaf trapframe ≠ none)
    (hsrc : strict → ∀ va < i + n * pgSize, own.leaf va ≠ none)
    (hdst : strict → ∀ va < i + n * pgSize, pt.leaf va = none)
    (hdone : ∀ pt'', Extended pt pt'' 0 (i + n * pgSize) → Q true (l.setTable .child (some pt'')))
    (hfail : ∀ pt'', (∀ va < 2 ^ 39, pt''.leaf va = pt.leaf va) → Q false (l.setTable .child (some pt''))) :
    wp (ledger sys strict) ok (copyLoop sys n i) l Q := by
  induction n generalizing i l pt' with
  | zero =>
    have := hdone pt' (by simpa using hx)
    rwa [setTable_self h] at this
  | succ n ih =>
    have hmax : trapframe < maxVa := by decide
    have hstep : i + pgSize + n * pgSize = i + (n + 1) * pgSize := by ring
    have hin : i < i + (n + 1) * pgSize := by simp only [pgSize]; omega
    have hiout : pt'.leaf i = pt.leaf i :=
      hx.outside i ((hx.le.trans_lt hmax).trans (by decide)) (by omega)
    have hpanic : own.leaf i = none → ∀ e, ok e := fun hnone => lax (fun hs => hsrc hs i hin hnone)
    rw [copyLoop, wp_bind]
    refine wp_walk hown (Or.inl (hx.le.trans_lt hmax)) (fun _ => ?_)
    by_cases hnode : (own.node0 i).isSome
    · rw [if_pos hnode, wp_bind]
      refine wp_pteAt hown (fun _ => ?_)
      cases hleaf : own.leaf i with
      | none => exact hpanic hleaf _
      | some pte =>
        rw [wp_bind]
        refine wp_kalloc ?_ (fun mem hmem => ?_)
        · rw [wp_bind]
          exact wp_unmapExtended lax h hx hi hfail
        · rw [wp_bind]
          refine wp_fill ?_
          rw [wp_bind]
          refine wp_mapUser h rfl hi (Or.inl (hx.le.trans_lt hmax)) ?_ (fun _ hnone => ?_)
            (fun pt'' htf hm => ?_) (fun pt'' hg => ?_)
          · rw [hiout]
            by_cases hs : strict
            · exact Or.inl (hdst hs i hin)
            · exact Or.inr (lax hs _)
          · refine lt_of_le_of_ne hx.le (fun heq => htrap ?_)
            rw [← heq, ← hiout, hnone]
          · rw [if_pos rfl]
            refine ih hown (table_setTable h) (hx.step hm rfl hi (Nat.zero_le _) htf)
              (by simp only [pgSize] at *; omega) (by rwa [hstep]) (by rwa [hstep]) (fun pt₃ hx' => ?_)
              (fun pt₃ hsame => ?_)
            · rw [setTable_setTable]
              exact hdone pt₃ (hstep ▸ hx')
            · rw [setTable_setTable]
              exact hfail pt₃ hsame
          · simp only [Bool.false_eq_true, ↓reduceIte, wp_bind]
            refine wp_kfree hmem (by rw [dropPage_takePage, tokens_takePage]) ?_
            rw [dropPage_takePage]
            refine wp_unmapExtended lax (table_setTable h) (hx.of_grown hg) hi (fun pt₃ hsame => ?_)
            rw [setTable_setTable]
            exact hfail pt₃ hsame
    · rw [if_neg hnode]
      refine hpanic ?_ _
      simp only [Bool.not_eq_true, Option.isSome_eq_false_iff, Option.isNone_iff_eq_none] at hnode
      rw [PageTable.leaf, hnode]
      rfl

structure Image (pt : PageTable) (sz : ℕ) : Prop where
  framed : Framed pt
  mapped : ∀ va < pgRoundUp sz, pt.leaf va ≠ none
  bare : ∀ va, pgRoundUp sz ≤ va → va < trapframe → pt.leaf va = none
  card : pgRoundUp sz / pgSize ≤ pt.pages.card
  le : sz ≤ trapframe

theorem Framed.of_leaf {pt' : PageTable} (h : Framed pt)
    (hleaf : ∀ va < 2 ^ 39, Vm.trapframe ≤ va → pt'.leaf va = pt.leaf va) : Framed pt' :=
  ⟨by rw [hleaf _ (by decide) le_rfl]; exact h.trapframe,
    by rw [hleaf _ (by decide) (by decide)]; exact h.trampoline,
    fun va hmax hva => by
      rw [hleaf va hva ((show Vm.trapframe ≤ maxVa by decide).trans hmax)]
      exact h.high va hmax hva⟩

theorem Image.extend {pt' : PageTable} {sz newsz : ℕ} (h : Image pt sz)
    (hx : Extended pt pt' (pgRoundUp sz) (pgRoundUp newsz)) (hle : sz ≤ newsz) (htf : newsz ≤ trapframe) :
    Image pt' newsz := by
  have hmono : pgRoundUp sz ≤ pgRoundUp newsz := by
    rw [pgRoundUp_eq (h.le.trans (by decide)), pgRoundUp_eq (htf.trans (by decide))]
    omega
  have hmax : trapframe < 2 ^ 39 := by decide
  have hle' := hx.le
  refine ⟨h.framed.of_leaf (fun va hva htf' => hx.outside va hva (by omega)), fun va hva => ?_,
    fun va hlo hhi => ?_, ?_, htf⟩
  · by_cases hlt : va < pgRoundUp sz
    · rw [hx.outside va (by omega) (by omega)]
      exact h.mapped va hlt
    · exact hx.inside va (by omega) hva
  · rw [hx.outside va (by omega) (by omega)]
    exact h.bare va (by omega) hhi
  · have h1 := h.card
    have h2 := hx.card
    have h3 := pgRoundUp_mod sz
    have h4 := pgRoundUp_mod newsz
    simp only [pgSize] at *
    omega

theorem wp_unmapFrame {Q : Unit → Local → Prop} (lax : ¬ strict → ∀ e, ok e) (h : l.table t = some pt)
    (ha : va % pgSize = 0) (hlo : trapframe ≤ va) (hhi : va + pgSize ≤ maxVa) (hleaf : pt.leaf va ≠ none)
    (hQ : ∀ pt', Cleared pt pt' va (va + pgSize) → Q () (l.setTable t (some pt'))) :
    wp (ledger sys strict) ok (uvmunmap sys t va 1 false) l Q := by
  have hmax : maxVa < 2 ^ 39 := by decide
  refine wp_uvmunmap lax h ha ?_ ?_ (by rwa [Nat.one_mul])
  · rw [Nat.one_mul]
    intro _ a hle hlt
    refine ⟨by omega, ?_⟩
    have hpage : a / pgSize = va / pgSize := by simp only [pgSize] at *; omega
    rw [leaf_eq_of_div (by omega) (by omega) hpage]
    exact hleaf
  · intro a hle _ _ _
    simp only [Bool.false_eq_true, false_iff, not_lt]
    omega

theorem wp_procFreepagetable {sz : ℕ} {Q : Unit → Local → Prop} (lax : ¬ strict → ∀ e, ok e)
    (h : l.table t = some pt) (hf : Framed pt)
    (hmapped : strict → sz ≤ trapframe ∧ ∀ va < pgRoundUp sz, pt.leaf va ≠ none)
    (hbare : strict → ∀ va, pgRoundUp sz ≤ va → va < trapframe → pt.leaf va = none)
    (hQ : Q () (l.setTable t none)) : wp (ledger sys strict) ok (procFreepagetable sys t sz) l Q := by
  have hvals : trampoline = trapframe + pgSize ∧ maxVa = trampoline + pgSize ∧ maxVa < 2 ^ 39 := by decide
  have hpos : 0 < pgSize := by decide
  rw [procFreepagetable, wp_bind]
  refine wp_unmapFrame lax h (by decide) (by decide) (by decide) hf.trampoline (fun pt₁ h₁ => ?_)
  rw [wp_bind]
  refine wp_unmapFrame lax (table_setTable h) (by decide) le_rfl (by decide) ?_ (fun pt₂ h₂ => ?_)
  · rw [h₁ trapframe (by omega), if_neg (by omega)]
    exact hf.trapframe
  rw [setTable_setTable]
  have hlow : ∀ va < 2 ^ 39, va < trapframe → pt₂.leaf va = pt.leaf va := by
    intro va hva hlt
    rw [h₂ va hva, if_neg (by omega), h₁ va hva, if_neg (by omega)]
  have hhigh : ∀ va < 2 ^ 39, trapframe ≤ va → pt₂.leaf va = none := by
    intro va hva hle
    rw [h₂ va hva, h₁ va hva]
    split_ifs
    · rfl
    · rfl
    · exact hf.high va (by omega) hva
  refine wp_uvmfree lax (table_setTable h) (fun va hva hne => ?_) (fun hs va hva => ?_)
    (fun hs va hva hle => ?_) (by rwa [setTable_setTable])
  · by_contra hge
    exact hne (hhigh va (by omega) (by omega))
  · have htf : pgRoundUp sz ≤ trapframe := by
      have := (hmapped hs).1
      rw [pgRoundUp_eq (this.trans (by decide))]
      simp only [trapframe, trampoline, maxVa, pgSize] at *
      omega
    refine ⟨by omega, ?_⟩
    rw [hlow va (by omega) (by omega)]
    exact (hmapped hs).2 va hva
  · by_cases hlt : va < trapframe
    · rw [hlow va hva hlt]
      exact hbare hs va hle hlt
    · exact hhigh va hva (by omega)

theorem leaf_empty (page : ℕ) : PageTable.leaf (.empty page) va = none := rfl

theorem tokens_createNew {page : ℕ} (h : l.new = none) :
    (l.setTable .new (some (.empty page))).tokens = (l.takePage page).tokens := by
  have hpages : tablePages (some (.empty page)) = {page} := by
    simp only [tablePages, Option.elim_some, PageTable.pages, Table.total_empty]
    rfl
  rw [tokens_takePage]
  simp only [Local.tokens, Local.setTable, h, hpages]
  simp only [tablePages, Option.elim_none]
  rw [show ofPages 0 = 0 from rfl]
  abel

theorem setTable_new_none {o : Option PageTable} (h : l.new = none) : (l.setTable .new o).setTable .new none = l := by
  rw [setTable_setTable]
  cases l
  cases h
  rfl

theorem wp_uvmcreate {Q : Bool → Local → Prop} (h : l.new = none) (hfail : Q false l)
    (hdone : ∀ page, Q true (l.setTable .new (some (.empty page)))) :
    wp (ledger sys strict) ok uvmcreate l Q := by
  rw [uvmcreate, wp_bind]
  refine wp_kalloc hfail (fun page _ => ?_)
  rw [wp_bind]
  refine wp_modifyLocal ?_ ?_
  · rw [setTable_takePage, dropPage_takePage, tokens_createNew h]
  · rw [setTable_takePage, dropPage_takePage]
    exact hdone page

theorem pgRoundUp_zero : pgRoundUp 0 = 0 := by decide

theorem wp_freeEmpty {Q : Unit → Local → Prop} (lax : ¬ strict → ∀ e, ok e) (h : l.table t = some pt)
    (hleaf : ∀ va < 2 ^ 39, pt.leaf va = none) (hQ : Q () (l.setTable t none)) :
    wp (ledger sys strict) ok (uvmfree sys t 0) l Q := by
  refine wp_uvmfree lax h (fun va hva hne => absurd (hleaf va (hva.trans (by decide))) hne) (fun _ va hva => ?_)
    (fun _ va hva _ => hleaf va hva) hQ
  rw [pgRoundUp_zero] at hva
  omega

theorem wp_procPagetable {tf : ℕ} {Q : Bool → Local → Prop} (lax : ¬ strict → ∀ e, ok e) (h : l.new = none)
    (hfail : Q false l) (hdone : ∀ pt, Image pt 0 → Q true (l.setTable .new (some pt))) :
    wp (ledger sys strict) ok (procPagetable sys tf) l Q := by
  have hvals : trampoline = trapframe + pgSize ∧ maxVa = trampoline + pgSize ∧ maxVa < 2 ^ 39 := by decide
  have htable : ∀ pt : PageTable, (l.setTable .new (some pt)).table .new = some pt := fun _ => rfl
  rw [procPagetable, wp_bind]
  refine wp_uvmcreate h hfail (fun page => ?_)
  rw [if_pos rfl, wp_bind]
  refine wp_mapFrame (htable _) (by decide) (by decide) (by decide) (leaf_empty page) (fun pt₁ h₁ => ?_)
    (fun pt₁ hg => ?_)
  · have hleaf₁ : ∀ va < 2 ^ 39, va / pgSize ≠ trampoline / pgSize → pt₁.leaf va = none := by
      intro va hva hne
      rw [h₁.leaf va hva, if_neg hne, leaf_empty]
    have htramp : pt₁.leaf trampoline ≠ none := by
      rw [h₁.leaf trampoline (by decide), if_pos rfl]
      simp
    rw [if_pos rfl, wp_bind, setTable_setTable]
    refine wp_mapFrame (htable _) (by decide) (by decide) (by decide) (hleaf₁ _ (by decide) (by decide))
      (fun pt₂ h₂ => ?_) (fun pt₂ hg => ?_)
    · rw [if_pos rfl, setTable_setTable]
      have hother : ∀ va < 2 ^ 39, va / pgSize ≠ trapframe / pgSize → va / pgSize ≠ trampoline / pgSize →
          pt₂.leaf va = none := by
        intro va hva hne hne'
        rw [h₂.leaf va hva, if_neg hne, hleaf₁ va hva hne']
      refine hdone pt₂ ⟨⟨?_, ?_, fun va hle hva => ?_⟩, fun va hva => ?_, fun va _ hva => ?_, Nat.zero_le _,
        Nat.zero_le _⟩
      · rw [h₂.leaf _ (by decide), if_pos rfl]
        simp
      · rw [h₂.leaf _ (by decide), if_neg (by decide)]
        exact htramp
      · refine hother va hva ?_ ?_ <;>
        · simp only [trapframe, trampoline, maxVa, pgSize] at *
          omega
      · rw [pgRoundUp_zero] at hva
        omega
      · refine hother va (by omega) ?_ ?_ <;>
        · simp only [trapframe, trampoline, maxVa, pgSize] at *
          omega
    · simp only [Bool.false_eq_true, ↓reduceIte, wp_bind, setTable_setTable]
      refine wp_unmapFrame lax (htable _) (by decide) (by decide) (by decide) ?_ (fun pt₃ h₃ => ?_)
      · rw [hg.leaf]
        exact htramp
      · refine wp_freeEmpty lax (htable _) (fun va hva => ?_) (by rwa [setTable_setTable, setTable_new_none h])
        rw [h₃ va hva, hg.leaf]
        split_ifs with hin
        · rfl
        · refine hleaf₁ va hva ?_
          simp only [trapframe, trampoline, maxVa, pgSize] at *
          omega
  · simp only [Bool.false_eq_true, ↓reduceIte, wp_bind, setTable_setTable]
    refine wp_freeEmpty lax (htable _) (fun va _ => ?_) (by rwa [setTable_new_none h])
    rw [hg.leaf, leaf_empty]

end Xv6.Kernel
