import Xv6.Kernel.Ledger

namespace Xv6.Kernel

open Lib Vm Prog

structure Grown (pt pt' : PageTable) : Prop where
  leaf : ∀ va, pt'.leaf va = pt.leaf va
  card : pt.pages.card ≤ pt'.pages.card

theorem Grown.refl (pt : PageTable) : Grown pt pt := ⟨fun _ => rfl, le_rfl⟩

theorem Grown.trans {pt pt' pt'' : PageTable} (h : Grown pt pt') (h' : Grown pt' pt'') : Grown pt pt'' :=
  ⟨fun va => (h'.leaf va).trans (h.leaf va), h.card.trans h'.card⟩

variable {sys : Sys} {strict : Prop} {ok : Panic → Prop} {l : Local} {t : TableRef} {pt : PageTable} {va : ℕ}

theorem pages_link {level page : ℕ} (hlevel : level = 2 ∨ level = 1 ∧ (pt.node1 va).isSome)
    (h : ¬ pt.hasNode level va) : (pt.link level va page).pages = pt.pages + {page} := by
  rw [Multiset.add_comm, Multiset.singleton_add]
  rcases hlevel with rfl | ⟨rfl, hn⟩
  · exact PageTable.pages_link2 (by simpa [PageTable.hasNode] using h)
  · obtain ⟨n, hn⟩ := Option.isSome_iff_exists.mp hn
    exact PageTable.pages_link1 hn (by simpa [PageTable.hasNode] using h)

theorem grown_link {level page : ℕ} (hlevel : level = 2 ∨ level = 1 ∧ (pt.node1 va).isSome)
    (h : ¬ pt.hasNode level va) : Grown pt (pt.link level va page) := by
  refine ⟨fun va' => ?_, by simp [pages_link hlevel h]⟩
  rcases hlevel with rfl | ⟨rfl, hn⟩
  · exact PageTable.leaf_link2 (by simpa [PageTable.hasNode] using h)
  · obtain ⟨n, hn⟩ := Option.isSome_iff_exists.mp hn
    exact PageTable.leaf_link1 hn (by simpa [PageTable.hasNode] using h)

theorem wp_descend {level : ℕ} {alloc : Bool} {Q : Bool → Local → Prop} (h : l.table t = some pt)
    (hlevel : level = 2 ∨ level = 1 ∧ (pt.node1 va).isSome) (hfound : pt.hasNode level va → Q true l)
    (hnot : ¬ pt.hasNode level va → Q false l)
    (hnew : ∀ page, alloc → ¬ pt.hasNode level va → Q true (l.setTable t (some (pt.link level va page)))) :
    wp (ledger sys strict) ok (descend t level va alloc) l Q := by
  rw [descend, wp_bind]
  refine wp_table h (fun _ => ?_)
  rw [wp_ite]
  split_ifs with hnode halloc
  · exact hfound hnode
  · rw [wp_bind]
    refine wp_kalloc (hnot hnode) (fun page _ => ?_)
    have hdrop : ((l.takePage page).mapTable t (·.link level va page)).dropPage page =
        l.setTable t (some (pt.link level va page)) := by
      rw [mapTable_eq (by rwa [table_takePage]), setTable_takePage, dropPage_takePage]
    rw [wp_bind]
    refine wp_modifyLocal ?_ ?_
    · rw [hdrop, tokens_setTable_add h (pages_link hlevel hnode), tokens_takePage]
    · rw [hdrop]
      exact hnew page halloc hnode
  · exact hnot hnode

theorem wp_walk {Q : Bool → Local → Prop} (h : l.table t = some pt) (hva : va < maxVa ∨ ok (.kernel "walk"))
    (hQ : va < maxVa → Q (pt.node0 va).isSome l) : wp (ledger sys strict) ok (walk t va false) l Q := by
  rw [walk, wp_ite]
  split_ifs with hlt
  · exact hva.resolve_left (by omega)
  replace hQ := hQ (by omega)
  rw [wp_bind]
  refine wp_descend h (Or.inl rfl) (fun h2 => ?_) (fun h2 => ?_) (fun page ha => absurd ha (by simp))
  · simp only [PageTable.hasNode, ↓reduceIte] at h2
    simp only [↓reduceIte]
    refine wp_descend h (Or.inr ⟨rfl, h2⟩) (fun h1 => ?_) (fun h1 => ?_) (fun page ha => absurd ha (by simp))
    · simp only [PageTable.hasNode, OfNat.one_ne_ofNat, ↓reduceIte] at h1
      rwa [h1] at hQ
    · simp only [PageTable.hasNode, OfNat.one_ne_ofNat, ↓reduceIte, Bool.not_eq_true] at h1
      rwa [h1] at hQ
  · simp only [PageTable.hasNode, ↓reduceIte, Bool.not_eq_true, Option.isSome_eq_false_iff,
      Option.isNone_iff_eq_none] at h2
    rwa [PageTable.node0, h2] at hQ

theorem wp_walk_alloc {Q : Bool → Local → Prop} (h : l.table t = some pt)
    (hva : va < maxVa ∨ ok (.kernel "walk"))
    (hfound : ∀ pt', va < maxVa → Grown pt pt' → (pt'.node0 va).isSome → Q true (l.setTable t (some pt')))
    (hfail : ∀ pt', va < maxVa → Grown pt pt' → Q false (l.setTable t (some pt'))) :
    wp (ledger sys strict) ok (walk t va true) l Q := by
  rw [walk, wp_ite]
  split_ifs with hlt
  · exact hva.resolve_left (by omega)
  replace hfound := fun pt' => hfound pt' (by omega)
  replace hfail := fun pt' => hfail pt' (by omega)
  have second : ∀ pt', Grown pt pt' → (pt'.node1 va).isSome →
      wp (ledger sys strict) ok (descend t 1 va true) (l.setTable t (some pt')) Q := by
    intro pt' hg hn
    refine wp_descend (table_setTable h) (Or.inr ⟨rfl, hn⟩) (fun h1 => hfound pt' hg h1)
      (fun h1 => hfail pt' hg) (fun page _ h1 => ?_)
    rw [setTable_setTable]
    refine hfound _ (hg.trans (grown_link (Or.inr ⟨rfl, hn⟩) h1)) ?_
    obtain ⟨n, hn⟩ := Option.isSome_iff_exists.mp hn
    rw [PageTable.node0_link1 hn, Option.isSome_some]
  rw [wp_bind]
  refine wp_descend h (Or.inl rfl) (fun h2 => ?_) (fun h2 => ?_) (fun page _ h2 => ?_)
  · have := second pt (.refl pt) h2
    rwa [setTable_self h] at this
  · have := hfail pt (.refl pt)
    rwa [setTable_self h] at this
  · exact second _ (grown_link (Or.inl rfl) h2) (by rw [PageTable.node1_link2, Option.isSome_some])

theorem pgRoundUp_mod (n : ℕ) : pgRoundUp n % pgSize = 0 := Nat.mul_mod_left _ _

theorem pgRoundUp_eq {n : ℕ} (h : n ≤ maxVa) : pgRoundUp n = (n + 4095) / 4096 * 4096 := by
  simp only [pgRoundUp, pgSize, maxVa] at *
  omega

structure Mapped (pt pt' : PageTable) (va : ℕ) (pte : Pte) : Prop where
  leaf : ∀ va' < 2 ^ 39, pt'.leaf va' = if va' / pgSize = va / pgSize then some pte else pt.leaf va'
  absent : pt.leaf va = none
  card : pt.pages.card + (if va < trapframe then 1 else 0) ≤ pt'.pages.card

theorem Mapped.of_setLeaf {pt' : PageTable} (pte : Pte) (hg : Grown pt pt') (hn : (pt'.node0 va).isSome)
    (hva : va < maxVa) (hnone : pt.leaf va = none) :
    Mapped pt (pt'.setLeaf va (some pte)) va pte ∧
      (pt'.setLeaf va (some pte)).pages = pt'.pages + PageTable.leafPage va (some pte) := by
  obtain ⟨n, hn⟩ := Option.isSome_iff_exists.mp hn
  have hpages := PageTable.pages_setLeaf (o := some pte) hn hva
  rw [hg.leaf, hnone] at hpages
  replace hpages := (add_zero _).symm.trans hpages
  refine ⟨⟨fun va' hva' => ?_, hnone, ?_⟩, hpages⟩
  · rw [PageTable.leaf_setLeaf hn (hva.trans (by decide)) hva', hg.leaf]
  · rw [hpages, Multiset.card_add]
    refine Nat.add_le_add hg.card ?_
    simp only [PageTable.leafPage, Option.elim_some]
    split_ifs <;> simp

theorem wp_mappages {pa : ℕ} {perm : ℕ → Pte} {Q : Bool → Local → Prop} (h : l.table t = some pt)
    (ha : va % pgSize = 0) (hva : va < maxVa ∨ ok (.kernel "walk"))
    (hremap : pt.leaf va = none ∨ ok (.kernel "mappages: remap"))
    (hmap : ∀ pt', va < maxVa → pt.leaf va = none → Grown pt pt' → (pt'.node0 va).isSome →
      ((l.setTable t (some pt')).install t va (perm pa)).tokens = (l.setTable t (some pt')).tokens ∧
      Q true ((l.setTable t (some pt')).install t va (perm pa)))
    (hfail : ∀ pt', Grown pt pt' → Q false (l.setTable t (some pt'))) :
    wp (ledger sys strict) ok (mappages t va pgSize pa perm) l Q := by
  have hone : (pgRoundDown (va + pgSize - 1) - pgRoundDown va) / pgSize + 1 = 1 := by
    simp only [pgRoundDown, pgSize] at *
    omega
  have hdown : pgRoundDown va = va := Nat.div_mul_cancel (Nat.dvd_of_mod_eq_zero ha)
  rw [mappages, if_neg (by decide), hone, hdown, mapLoop, wp_bind]
  refine wp_walk_alloc h hva (fun pt' hlt hg hn => ?_) (fun pt' hlt hg => hfail pt' hg)
  rw [if_pos rfl, wp_bind]
  refine wp_pteAt (table_setTable h) (fun _ => ?_)
  cases hleaf : pt.leaf va with
  | some pte =>
    rw [hg.leaf, hleaf]
    exact hremap.resolve_left (by simp [hleaf])
  | none =>
    obtain ⟨htok, hQ⟩ := hmap pt' hlt hleaf hg hn
    rw [hg.leaf, hleaf, wp_bind]
    exact wp_modifyLocal htok hQ

theorem wp_mapUser {pa : ℕ} {perm : ℕ → Pte} {Q : Bool → Local → Prop} (h : l.table t = some pt)
    (hpa : (perm pa).pa = pa) (ha : va % pgSize = 0) (hva : va < maxVa ∨ ok (.kernel "walk"))
    (hremap : pt.leaf va = none ∨ ok (.kernel "mappages: remap"))
    (hlow : va < maxVa → pt.leaf va = none → va < trapframe)
    (hmap : ∀ pt', va < trapframe → Mapped pt pt' va (perm pa) → Q true (l.setTable t (some pt')))
    (hfail : ∀ pt', Grown pt pt' → Q false ((l.setTable t (some pt')).takePage pa)) :
    wp (ledger sys strict) ok (mappages t va pgSize pa perm) (l.takePage pa) Q := by
  refine wp_mappages ((table_takePage).trans h) ha hva hremap (fun pt' hlt hleaf hg hn => ?_)
    (fun pt' hg => by rw [setTable_takePage]; exact hfail pt' hg)
  have htf := hlow hlt hleaf
  obtain ⟨hmapped, hpages⟩ := Mapped.of_setLeaf (perm pa) hg hn hlt hleaf
  have hinstall : ((l.takePage pa).setTable t (some pt')).install t va (perm pa) =
      l.setTable t (some (pt'.setLeaf va (some (perm pa)))) := by
    rw [Local.install, mapTable_eq (table_setTable (by rwa [table_takePage])), setTable_setTable, if_pos htf, hpa,
      setTable_takePage, dropPage_takePage]
  rw [hinstall]
  refine ⟨?_, hmap _ htf hmapped⟩
  have hadd := tokens_setTable_add (table_setTable (o := some pt') h) hpages
  simp only [setTable_setTable, PageTable.leafPage, Option.elim_some, htf, ↓reduceIte, hpa] at hadd
  rw [hadd, setTable_takePage, tokens_takePage]

theorem wp_mapFrame {pa : ℕ} {perm : ℕ → Pte} {Q : Bool → Local → Prop} (h : l.table t = some pt)
    (ha : va % pgSize = 0) (hva : va < maxVa) (htf : ¬ va < trapframe) (hnone : pt.leaf va = none)
    (hmap : ∀ pt', Mapped pt pt' va (perm pa) → Q true (l.setTable t (some pt')))
    (hfail : ∀ pt', Grown pt pt' → Q false (l.setTable t (some pt'))) :
    wp (ledger sys strict) ok (mappages t va pgSize pa perm) l Q := by
  refine wp_mappages h ha (Or.inl hva) (Or.inl hnone) (fun pt' hlt hleaf hg hn => ?_) hfail
  obtain ⟨hmapped, hpages⟩ := Mapped.of_setLeaf (perm pa) hg hn hlt hleaf
  have hinstall : (l.setTable t (some pt')).install t va (perm pa) =
      l.setTable t (some (pt'.setLeaf va (some (perm pa)))) := by
    rw [Local.install, mapTable_eq (table_setTable h), setTable_setTable, if_neg htf]
  rw [hinstall]
  refine ⟨?_, hmap _ hmapped⟩
  have hadd := tokens_setTable_add (table_setTable (o := some pt') h) hpages
  simp only [setTable_setTable, PageTable.leafPage, Option.elim_some, htf, ↓reduceIte] at hadd
  exact hadd.trans (add_zero _)

def Cleared (pt pt' : PageTable) (lo hi : ℕ) : Prop :=
  ∀ va < 2 ^ 39, pt'.leaf va = if lo ≤ va ∧ va < hi then none else pt.leaf va

theorem Cleared.of_setLeaf {pt' : PageTable} {a hi : ℕ} {n : Node Pte}
    (h : Cleared (pt.setLeaf a none) pt' (a + pgSize) hi) (hn : pt.node0 a = some n) (hlt : a < maxVa)
    (ha : a % pgSize = 0) (hhi : a + pgSize ≤ hi) : Cleared pt pt' a hi := by
  intro va hva
  rw [h va hva, PageTable.leaf_setLeaf hn (hlt.trans (by decide)) hva]
  by_cases hpage : va / pgSize = a / pgSize
  · rw [if_neg, if_pos hpage, if_pos] <;>
    · simp only [pgSize] at *
      omega
  · rw [if_neg hpage]
    congr 1
    simp only [pgSize, eq_iff_iff] at *
    omega

theorem wp_unmapLoop {doFree : Bool} {n a : ℕ} {Q : Unit → Local → Prop} (lax : ¬ strict → ∀ e, ok e)
    (h : l.table t = some pt) (ha : a % pgSize = 0)
    (hmapped : strict → ∀ va, a ≤ va → va < a + n * pgSize → va < maxVa ∧ pt.leaf va ≠ none)
    (hfree : ∀ va, a ≤ va → va < a + n * pgSize → va < maxVa → pt.leaf va ≠ none →
      (doFree ↔ va < trapframe))
    (hQ : ∀ pt', Cleared pt pt' a (a + n * pgSize) → Q () (l.setTable t (some pt'))) :
    wp (ledger sys strict) ok (unmapLoop sys t doFree n a) l Q := by
  induction n generalizing a l pt with
  | zero =>
    have := hQ pt (fun va _ => by rw [if_neg (by omega)])
    rwa [setTable_self h] at this
  | succ n ih =>
    have hin : a < a + (n + 1) * pgSize := by simp only [pgSize]; omega
    rw [unmapLoop, wp_bind]
    refine wp_walk h ?_ (fun hlt => ?_)
    · by_cases hs : strict
      · exact Or.inl (hmapped hs a le_rfl hin).1
      · exact Or.inr (lax hs _)
    have hpanic : pt.leaf a = none → ∀ e, ok e := by
      intro hnone
      refine lax (fun hs => (hmapped hs a le_rfl hin).2 hnone)
    by_cases hnode : (pt.node0 a).isSome
    · rw [if_pos hnode, wp_bind]
      refine wp_pteAt h (fun hpool => ?_)
      cases hleaf : pt.leaf a with
      | none => exact hpanic hleaf _
      | some pte =>
        have hcond := hfree a le_rfl hin hlt (by simp [hleaf])
        have hclear := PageTable.pages_clearLeaf hleaf hlt
        obtain ⟨node, hn⟩ := PageTable.node0_of_leaf hleaf
        have hrest : wp (ledger sys strict) ok (unmapLoop sys t doFree n (a + pgSize))
            (l.setTable t (some (pt.setLeaf a none))) Q := by
          have hleaf' : ∀ va, a + pgSize ≤ va → va < maxVa → (pt.setLeaf a none).leaf va = pt.leaf va := by
            intro va hle hlt'
            rw [PageTable.leaf_setLeaf hn (hlt.trans (by decide)) (hlt'.trans (by decide)), if_neg]
            simp only [pgSize] at *
            omega
          have hstep : a + pgSize + n * pgSize = a + (n + 1) * pgSize := by ring
          refine ih (table_setTable h) (by simp only [pgSize] at *; omega) (fun hs va hle hva => ?_)
            (fun va hle hva hmax hne => ?_) (fun pt' hpt' => ?_)
          · have := hmapped hs va (by omega) (by omega)
            exact ⟨this.1, by rw [hleaf' va hle this.1]; exact this.2⟩
          · exact hfree va (by omega) (by omega) hmax (by rwa [hleaf' va hle hmax] at hne)
          · rw [setTable_setTable]
            exact hQ pt' (hstep ▸ hpt'.of_setLeaf hn hlt ha (by simp only [pgSize]; omega))
        simp only [wp_bind, wp_ite]
        split_ifs with hdo
        · have htf := hcond.mp hdo
          refine wp_kfree (inPool_of_mem (Multiset.mem_of_le hpool (PageTable.pa_mem_pages hleaf htf))) ?_ ?_
          · rw [mapTable_eq h]
            refine tokens_setTable_sub h ?_
            rw [← hclear]
            simp [PageTable.leafPage, htf]
          · rw [mapTable_eq h]
            exact hrest
        · have htf : ¬ a < trapframe := fun hlt => hdo (hcond.mpr hlt)
          refine wp_modifyLocal ?_ ?_
          · rw [mapTable_eq h]
            have := tokens_setTable_sub h hclear
            simp only [PageTable.leafPage, Option.elim_some, htf, ↓reduceIte] at this
            exact (add_zero _).symm.trans this
          · rw [mapTable_eq h]
            exact hrest
    · rw [if_neg hnode]
      refine hpanic ?_ _
      rw [PageTable.leaf]
      simp only [Bool.not_eq_true, Option.isSome_eq_false_iff, Option.isNone_iff_eq_none] at hnode
      rw [hnode]
      rfl

theorem wp_uvmunmap {doFree : Bool} {n : ℕ} {Q : Unit → Local → Prop} (lax : ¬ strict → ∀ e, ok e)
    (h : l.table t = some pt) (ha : va % pgSize = 0)
    (hmapped : strict → ∀ a, va ≤ a → a < va + n * pgSize → a < maxVa ∧ pt.leaf a ≠ none)
    (hfree : ∀ a, va ≤ a → a < va + n * pgSize → a < maxVa → pt.leaf a ≠ none → (doFree ↔ a < trapframe))
    (hQ : ∀ pt', Cleared pt pt' va (va + n * pgSize) → Q () (l.setTable t (some pt'))) :
    wp (ledger sys strict) ok (uvmunmap sys t va n doFree) l Q := by
  rw [uvmunmap, if_neg (by simp [ha])]
  exact wp_unmapLoop lax h ha hmapped hfree hQ

theorem wp_uvmdealloc {oldsz newsz : ℕ} {Q : ℕ → Local → Prop} (lax : ¬ strict → ∀ e, ok e)
    (h : l.table t = some pt) (hold : oldsz ≤ trapframe)
    (hmapped : strict → ∀ va, pgRoundUp newsz ≤ va → va < pgRoundUp oldsz → pt.leaf va ≠ none)
    (hsame : oldsz ≤ newsz → Q oldsz l)
    (hQ : ∀ pt', newsz < oldsz → Cleared pt pt' (pgRoundUp newsz) (pgRoundUp oldsz) →
      Q newsz (l.setTable t (some pt'))) :
    wp (ledger sys strict) ok (uvmdealloc sys t oldsz newsz) l Q := by
  rw [uvmdealloc, wp_ite]
  split_ifs with hle hlt
  · exact hsame hle
  · have htf : pgRoundUp oldsz ≤ trapframe := by
      rw [pgRoundUp_eq (hold.trans (by decide))]
      simp only [trapframe, trampoline, maxVa, pgSize] at *
      omega
    have hend : pgRoundUp newsz + (pgRoundUp oldsz - pgRoundUp newsz) / pgSize * pgSize = pgRoundUp oldsz := by
      have h1 := pgRoundUp_mod oldsz
      have h2 := pgRoundUp_mod newsz
      simp only [pgSize] at *
      omega
    rw [wp_bind]
    refine wp_uvmunmap lax h (pgRoundUp_mod newsz) ?_ ?_ ?_
    · rw [hend]
      intro hs va hlo hhi
      exact ⟨hhi.trans_le (htf.trans (by decide)), hmapped hs va hlo hhi⟩
    · rw [hend]
      intro va hlo hhi _ _
      simp only [true_iff]
      exact hhi.trans_le htf
    · rw [hend]
      exact fun pt' hpt' => hQ pt' (by omega) hpt'
  · have := hQ pt (by omega) (fun va _ => by rw [if_neg (by omega)])
    rwa [setTable_self h] at this

structure Extended (pt pt' : PageTable) (lo hi : ℕ) : Prop where
  outside : ∀ va < 2 ^ 39, ¬ (lo ≤ va ∧ va < hi) → pt'.leaf va = pt.leaf va
  inside : ∀ va, lo ≤ va → va < hi → pt'.leaf va ≠ none
  absent : ∀ va, lo ≤ va → va < hi → pt.leaf va = none
  card : pt.pages.card + (hi - lo) / pgSize ≤ pt'.pages.card
  le : hi ≤ trapframe

theorem Extended.refl {lo : ℕ} (h : lo ≤ trapframe) : Extended pt pt lo lo :=
  ⟨fun _ _ _ => rfl, fun va hlo hhi => by omega, fun va hlo hhi => by omega, by simp, h⟩

theorem leaf_eq_of_div {va' : ℕ} (h : va < 2 ^ 39) (h' : va' < 2 ^ 39) (heq : va' / pgSize = va / pgSize) :
    pt.leaf va' = pt.leaf va := by
  obtain ⟨h2, h1, h0⟩ := (PageTable.px_eq_iff h h').mpr heq
  rw [PageTable.leaf, PageTable.leaf, PageTable.node0, PageTable.node0, PageTable.node1, PageTable.node1, h2, h1, h0]

theorem Extended.step {pt' pt'' : PageTable} {lo a : ℕ} {pte : Pte} (h : Extended pt pt' lo a)
    (hm : Mapped pt' pt'' a pte) (hlo : lo % pgSize = 0) (ha : a % pgSize = 0) (hle : lo ≤ a)
    (htf : a < trapframe) : Extended pt pt'' lo (a + pgSize) := by
  have hmax : trapframe + pgSize < 2 ^ 39 := by decide
  have hanone : pt.leaf a = none := by rw [← h.outside a (by omega) (by omega), hm.absent]
  refine ⟨fun va hva hout => ?_, fun va hlo' hhi => ?_, fun va hlo' hhi => ?_, ?_, ?_⟩
  · rw [hm.leaf va hva, if_neg, h.outside va hva]
    · simp only [pgSize] at *
      omega
    · simp only [pgSize] at *
      omega
  · rw [hm.leaf va (by omega)]
    split_ifs with hpage
    · simp
    · exact h.inside va hlo' (by simp only [pgSize] at *; omega)
  · by_cases hlt : va < a
    · exact h.absent va hlo' hlt
    · have hpage : va / pgSize = a / pgSize := by simp only [pgSize] at *; omega
      rw [leaf_eq_of_div (by omega) (by omega) hpage, hanone]
  · have h1 := h.card
    have h2 := hm.card
    rw [if_pos htf] at h2
    simp only [pgSize] at *
    omega
  · simp only [trapframe, trampoline, maxVa, pgSize] at *
    omega

theorem Extended.of_grown {pt' pt'' : PageTable} {lo hi : ℕ} (h : Extended pt pt' lo hi)
    (hg : Grown pt' pt'') : Extended pt pt'' lo hi :=
  ⟨fun va hva hout => by rw [hg.leaf, h.outside va hva hout],
    fun va hlo hhi => by rw [hg.leaf]; exact h.inside va hlo hhi, h.absent, h.card.trans hg.card, h.le⟩

theorem Extended.cleared {pt' pt'' : PageTable} {lo hi : ℕ} (h : Extended pt pt' lo hi)
    (hc : Cleared pt' pt'' lo hi) (va : ℕ) (hva : va < 2 ^ 39) : pt''.leaf va = pt.leaf va := by
  rw [hc va hva]
  split_ifs with hin
  · exact (h.absent va hin.1 hin.2).symm
  · exact h.outside va hva hin

theorem wp_rollback {pt' : PageTable} {lo a : ℕ} {Q : ℕ → Local → Prop} (lax : ¬ strict → ∀ e, ok e)
    (h : l.table t = some pt') (hx : Extended pt pt' lo a) (hlo : lo % pgSize = 0) (ha : a % pgSize = 0)
    (hle : lo ≤ a) (hQ : ∀ n pt'', (∀ va < 2 ^ 39, pt''.leaf va = pt.leaf va) → Q n (l.setTable t (some pt''))) :
    wp (ledger sys strict) ok (uvmdealloc sys t a lo) l Q := by
  have hround : ∀ b, b % pgSize = 0 → b ≤ trapframe → pgRoundUp b = b := by
    intro b hb hbt
    rw [pgRoundUp_eq (hbt.trans (by decide))]
    simp only [pgSize] at *
    omega
  have hra := hround a ha hx.le
  have hrlo := hround lo hlo (hle.trans hx.le)
  refine wp_uvmdealloc lax h hx.le ?_ (fun hle' => ?_) (fun pt'' _ hc => ?_)
  · rw [hra, hrlo]
    exact fun _ va h1 h2 => hx.inside va h1 h2
  · have := hQ a pt' (fun va hva => hx.outside va hva (by omega))
    rwa [setTable_self h] at this
  · rw [hra, hrlo] at hc
    exact hQ lo pt'' (hx.cleared hc)

theorem wp_allocLoop {pt' : PageTable} {lo n a : ℕ} {Q : Bool → Local → Prop} (lax : ¬ strict → ∀ e, ok e)
    (h : l.table t = some pt') (hx : Extended pt pt' lo a) (hlo : lo % pgSize = 0) (ha : a % pgSize = 0)
    (hle : lo ≤ a) (htrap : pt.leaf trapframe ≠ none)
    (hremap : ok (.kernel "mappages: remap") ∨
      ∀ va, lo ≤ va → va < a + n * pgSize → pt.leaf va = none)
    (hdone : ∀ pt'', Extended pt pt'' lo (a + n * pgSize) → Q true (l.setTable t (some pt'')))
    (hfail : ∀ pt'', (∀ va < 2 ^ 39, pt''.leaf va = pt.leaf va) → Q false (l.setTable t (some pt''))) :
    wp (ledger sys strict) ok (allocLoop sys t lo n a) l Q := by
  induction n generalizing a l pt' with
  | zero =>
    have := hdone pt' (by simpa using hx)
    rwa [setTable_self h] at this
  | succ n ih =>
    have hmax : trapframe < maxVa := by decide
    have hstep : a + pgSize + n * pgSize = a + (n + 1) * pgSize := by ring
    have haout : pt'.leaf a = pt.leaf a :=
      hx.outside a ((hx.le.trans_lt hmax).trans (by decide)) (by omega)
    rw [allocLoop, wp_bind]
    refine wp_kalloc ?_ (fun mem hmem => ?_)
    · rw [wp_bind]
      exact wp_rollback lax h hx hlo ha hle (fun _ pt'' hpt'' => hfail pt'' hpt'')
    · rw [wp_bind]
      refine wp_fill ?_
      rw [wp_bind]
      refine wp_mapUser h rfl ha (Or.inl (hx.le.trans_lt hmax)) ?_ (fun _ hnone => ?_)
        (fun pt'' htf hm => ?_) (fun pt'' hg => ?_)
      · rw [haout]
        refine hremap.symm.imp_left (fun hall => hall a hle ?_)
        simp only [pgSize]
        omega
      · refine lt_of_le_of_ne hx.le (fun heq => htrap ?_)
        rw [← heq, ← haout, hnone]
      · rw [if_pos rfl]
        refine ih (table_setTable h) (hx.step hm hlo ha hle htf) (by simp only [pgSize] at *; omega)
          (by omega) (by rwa [hstep]) (fun pt₃ hx' => ?_) (fun pt₃ hsame => ?_)
        · rw [setTable_setTable]
          exact hdone pt₃ (hstep ▸ hx')
        · rw [setTable_setTable]
          exact hfail pt₃ hsame
      · simp only [Bool.false_eq_true, ↓reduceIte, wp_bind]
        refine wp_kfree hmem (by rw [dropPage_takePage, tokens_takePage]) ?_
        rw [dropPage_takePage]
        refine wp_rollback lax (table_setTable h) (hx.of_grown hg) hlo ha hle (fun _ pt₃ hsame => ?_)
        rw [setTable_setTable]
        exact hfail pt₃ hsame

theorem wp_uvmalloc {oldsz newsz : ℕ} {Q : ℕ → Local → Prop} (lax : ¬ strict → ∀ e, ok e)
    (h : l.table t = some pt) (htrap : pt.leaf trapframe ≠ none) (hold : oldsz ≤ trapframe)
    (hremap : ok (.kernel "mappages: remap") ∨ newsz ≤ maxVa ∧
      ∀ va, pgRoundUp oldsz ≤ va → va < pgRoundUp newsz → pt.leaf va = none)
    (hsame : newsz < oldsz → Q oldsz l)
    (hdone : ∀ pt', oldsz ≤ newsz → newsz ≤ trapframe →
      Extended pt pt' (pgRoundUp oldsz) (pgRoundUp newsz) → Q newsz (l.setTable t (some pt')))
    (hfail : ∀ pt', (∀ va < 2 ^ 39, pt'.leaf va = pt.leaf va) → Q 0 (l.setTable t (some pt'))) :
    wp (ledger sys strict) ok (uvmalloc sys t oldsz newsz) l Q := by
  have hlo : pgRoundUp oldsz ≤ trapframe ∧ oldsz ≤ pgRoundUp oldsz ∧ pgRoundUp oldsz < oldsz + 4096 := by
    rw [pgRoundUp_eq (hold.trans (by decide))]
    simp only [trapframe, trampoline, maxVa, pgSize] at *
    omega
  have hend : oldsz ≤ newsz → newsz ≤ maxVa →
      pgRoundUp oldsz + (newsz - pgRoundUp oldsz + (pgSize - 1)) / pgSize * pgSize = pgRoundUp newsz := by
    intro hle hmax
    rw [pgRoundUp_eq (hold.trans (by decide)), pgRoundUp_eq hmax]
    simp only [pgSize]
    omega
  rw [uvmalloc, wp_ite]
  split_ifs with hlt
  · exact hsame hlt
  rw [wp_bind]
  refine wp_allocLoop lax h (.refl hlo.1) (pgRoundUp_mod _) (pgRoundUp_mod _) le_rfl htrap ?_
    (fun pt' hx => ?_) (fun pt' hpt' => hfail pt' hpt')
  · refine hremap.imp_right (fun hr => ?_)
    rw [hend (by omega) hr.1]
    exact hr.2
  · have hle : newsz ≤ trapframe := by
      have := hx.le
      simp only [pgSize] at this
      omega
    rw [hend (by omega) (hle.trans (by decide))] at hx
    exact hdone pt' (by omega) hle hx

def NoLeaf (pt : PageTable) : Prop :=
  ∀ i n, pt.entry i = some n → ∀ j m, n.entry j = some m → ∀ k, m.entry k = none

theorem NoLeaf.of_leaf (h : ∀ va < 2 ^ 39, pt.leaf va = none) : NoLeaf pt := by
  intro i n hn j m hm k
  have hleaf := h (PageTable.vaOf i j k) (PageTable.vaOf_lt i j k)
  obtain ⟨h2, h1, h0⟩ := PageTable.px_vaOf i j k
  rwa [PageTable.leaf, PageTable.node0, PageTable.node1, h2, hn, Option.bind_some, h1, hm, Option.bind_some,
    h0] at hleaf

theorem pages_freeNode0 {i j : Fin 512} {n : Node (Node Pte)} {m : Node Pte} (hn : pt.entry i = some n)
    (hm : n.entry j = some m) (hleaf : ∀ k, m.entry k = none) :
    PageTable.pages (pt.set i (some (n.set j none))) + {m.tag} = pt.pages := by
  have hva := PageTable.px_vaOf i j 0
  have hnode : pt.node1 (PageTable.vaOf i j 0) = some n := by rw [PageTable.node1, hva.1, hn]
  have hs := PageTable.pages_setNode0 (o := none) hnode
  rw [PageTable.setNode0, hnode, hva.1, hva.2.1, hm] at hs
  simpa [PageTable.pages0, Table.total_eq_zero _ hleaf] using hs

theorem pages_freeNode1 {i : Fin 512} {n : Node (Node Pte)} (hn : pt.entry i = some n)
    (hnone : ∀ j, n.entry j = none) : PageTable.pages (pt.set i none) + {n.tag} = pt.pages := by
  have hs := pt.total_set (i := i) (o := none) PageTable.pages1
  simp only [hn, Option.elim_some, Option.elim_none, PageTable.pages1, Table.total_eq_zero _ hnone,
    add_zero] at hs
  rw [PageTable.pages, PageTable.pages, Table.tag_set, Multiset.cons_add, ← hs]
  rfl

theorem wp_freewalk0 {i j : Fin 512} {n : Node (Node Pte)} {Q : Unit → Local → Prop}
    (lax : ¬ strict → ∀ e, ok e) (h : l.table t = some pt) (hn : pt.entry i = some n)
    (hleaf : strict → ∀ m, n.entry j = some m → ∀ k, m.entry k = none)
    (hQ : Q () (l.setTable t (some (pt.set i (some (n.set j none)))))) :
    wp (ledger sys strict) ok (freewalk0 sys t (PageTable.vaOf i j 0)) l Q := by
  have hva := PageTable.px_vaOf i j 0
  have hnode : pt.node1 (PageTable.vaOf i j 0) = some n := by rw [PageTable.node1, hva.1, hn]
  have hnode0 : pt.node0 (PageTable.vaOf i j 0) = n.entry j := by
    rw [PageTable.node0, hnode, Option.bind_some, hva.2.1]
  have hset : pt.setNode0 (PageTable.vaOf i j 0) none = pt.set i (some (n.set j none)) := by
    rw [PageTable.setNode0, hnode, hva.1, hva.2.1]
  rw [freewalk0, wp_bind]
  refine wp_table h (fun hpool => ?_)
  rw [hnode0]
  cases hm : n.entry j with
  | none =>
    rw [← hm, Table.set_entry_self, ← hn, Table.set_entry_self, setTable_self h] at hQ
    exact hQ
  | some m =>
    dsimp only
    by_cases hany : entries.any (fun k => (m.entry k).isSome)
    · rw [if_pos hany]
      refine lax (fun hs => ?_) _
      obtain ⟨k, -, hk⟩ := List.any_eq_true.mp hany
      rw [hleaf hs m hm k] at hk
      cases hk
    · rw [if_neg hany]
      have hnone : ∀ k, m.entry k = none := by
        intro k
        by_contra hk
        refine hany (List.any_eq_true.mpr ⟨k, mem_entries k, ?_⟩)
        exact Option.isSome_iff_ne_none.mpr hk
      have hpages := pages_freeNode0 hn hm hnone
      have hmem : m.tag ∈ pt.pages := by simp [← hpages]
      refine wp_kfree (inPool_of_mem (Multiset.mem_of_le hpool hmem)) ?_ ?_
      · rw [mapTable_eq h, hset]
        exact tokens_setTable_sub h hpages
      · rw [mapTable_eq h, hset]
        exact hQ

theorem wp_freewalk1 {i : Fin 512} {Q : Unit → Local → Prop} (lax : ¬ strict → ∀ e, ok e)
    (h : l.table t = some pt)
    (hleaf : strict → ∀ n, pt.entry i = some n → ∀ j m, n.entry j = some m → ∀ k, m.entry k = none)
    (hQ : Q () (l.setTable t (some (pt.set i none)))) :
    wp (ledger sys strict) ok (freewalk1 sys t i) l Q := by
  rw [freewalk1, wp_bind]
  refine wp_table h (fun hpool => ?_)
  cases hn : pt.entry i with
  | none =>
    rw [← hn, Table.set_entry_self, setTable_self h] at hQ
    exact hQ
  | some n =>
    rw [wp_bind]
    refine wp_mono (wp_forM (I := fun done l' => ∃ n' : Node (Node Pte), n'.tag = n.tag ∧
      (∀ j ∈ done, n'.entry j = none) ∧ (∀ j, n'.entry j = none ∨ n'.entry j = n.entry j) ∧
      l' = l.setTable t (some (pt.set i (some n')))) ?_ ?_) ?_
    · refine ⟨n, rfl, fun j hj => absurd hj List.not_mem_nil, fun j => Or.inr rfl, ?_⟩
      rw [← hn, Table.set_entry_self, setTable_self h]
    · rintro done j rest - l' ⟨n', htag, hdone, hsub, rfl⟩
      refine wp_freewalk0 lax (table_setTable h) Table.entry_set_self (fun hs m hm => ?_) ?_
      · refine hleaf hs n hn j m ?_
        rcases hsub j with hnone | heq
        · rw [hnone] at hm
          cases hm
        · rw [← heq, hm]
      · refine ⟨n'.set j none, htag, fun j' hj' => ?_, fun j' => ?_, ?_⟩
        · rw [Table.entry_set]
          split_ifs with hjj
          · rfl
          · exact hdone j' ((List.mem_append.mp hj').resolve_right (by simpa using hjj))
        · rw [Table.entry_set]
          split_ifs
          · exact Or.inl rfl
          · exact hsub j'
        · rw [setTable_setTable, Table.set_set]
    · rintro _ l' ⟨n', htag, hdone, -, rfl⟩
      have hpages := pages_freeNode1 (show (pt.set i (some n')).entry i = some n' from Table.entry_set_self)
        (fun j => hdone j (mem_entries j))
      rw [Table.set_set, htag] at hpages
      have hpool' : sys.InPool n.tag := by
        refine inPool_of_mem (Multiset.mem_of_le hpool ?_)
        have hs := pt.total_set (i := i) (o := none) PageTable.pages1
        rw [hn] at hs
        simp only [Option.elim_some, Option.elim_none, add_zero, PageTable.pages1] at hs
        rw [PageTable.pages, ← hs]
        simp
      refine wp_kfree hpool' ?_ ?_
      · rw [mapTable_eq (table_setTable h), setTable_setTable, Table.set_set, ← setTable_setTable]
        exact tokens_setTable_sub (table_setTable h) hpages
      · rw [mapTable_eq (table_setTable h), setTable_setTable, Table.set_set]
        exact hQ

theorem wp_freewalk {Q : Unit → Local → Prop} (lax : ¬ strict → ∀ e, ok e) (h : l.table t = some pt)
    (hleaf : strict → ∀ va < 2 ^ 39, pt.leaf va = none) (hQ : Q () (l.setTable t none)) :
    wp (ledger sys strict) ok (freewalk sys t) l Q := by
  rw [freewalk, wp_bind]
  refine wp_mono (wp_forM (I := fun done l' => ∃ pt' : PageTable, (∀ i ∈ done, pt'.entry i = none) ∧
    (∀ i, pt'.entry i = none ∨ pt'.entry i = pt.entry i) ∧ l' = l.setTable t (some pt')) ?_ ?_) ?_
  · exact ⟨pt, fun i hi => absurd hi List.not_mem_nil, fun i => Or.inr rfl, (setTable_self h).symm⟩
  · rintro done i rest - l' ⟨pt', hdone, hsub, rfl⟩
    refine wp_freewalk1 lax (table_setTable h) (fun hs n hn => ?_) ?_
    · refine NoLeaf.of_leaf (hleaf hs) i n ?_
      rcases hsub i with hnone | heq
      · rw [hnone] at hn
        cases hn
      · rw [← heq, hn]
    · refine ⟨pt'.set i none, fun i' hi' => ?_, fun i' => ?_, setTable_setTable⟩
      · rw [Table.entry_set]
        split_ifs with hii
        · rfl
        · exact hdone i' ((List.mem_append.mp hi').resolve_right (by simpa using hii))
      · rw [Table.entry_set]
        split_ifs
        · exact Or.inl rfl
        · exact hsub i'
  · rintro _ l' ⟨pt', hdone, -, rfl⟩
    have hpages : pt'.pages = {pt'.tag} := by
      rw [PageTable.pages, Table.total_eq_zero _ (fun i => hdone i (mem_entries i))]
      rfl
    rw [wp_bind]
    refine wp_table (table_setTable h) (fun hpool => wp_kfree (inPool_of_mem ?_) ?_ ?_)
    · exact Multiset.mem_of_le hpool (by simp [hpages])
    · have hs := tokens_setTable (o := none) (table_setTable (o := some pt') h)
      rw [hpages] at hs
      exact hs.trans (add_zero _)
    · rw [setTable_setTable]
      exact hQ

theorem wp_uvmfree {sz : ℕ} {Q : Unit → Local → Prop} (lax : ¬ strict → ∀ e, ok e) (h : l.table t = some pt)
    (hlow : ∀ va < maxVa, pt.leaf va ≠ none → va < trapframe)
    (hmapped : strict → ∀ va < pgRoundUp sz, va < maxVa ∧ pt.leaf va ≠ none)
    (habove : strict → ∀ va < 2 ^ 39, pgRoundUp sz ≤ va → pt.leaf va = none)
    (hQ : Q () (l.setTable t none)) : wp (ledger sys strict) ok (uvmfree sys t sz) l Q := by
  have hend : 0 + pgRoundUp sz / pgSize * pgSize = pgRoundUp sz := by
    have := pgRoundUp_mod sz
    simp only [pgSize] at *
    omega
  have hfree : ∀ pt', Cleared pt pt' 0 (pgRoundUp sz) →
      wp (ledger sys strict) ok (freewalk sys t) (l.setTable t (some pt')) Q := by
    intro pt' hc
    refine wp_freewalk lax (table_setTable h) (fun hs va hva => ?_) (by rwa [setTable_setTable])
    rw [hc va hva]
    split_ifs with hin
    · rfl
    · exact habove hs va hva (by omega)
  simp only [uvmfree, wp_bind, wp_ite]
  split_ifs with hsz
  · refine wp_uvmunmap lax h rfl ?_ ?_ ?_
    · rw [hend]
      exact fun hs va _ hva => hmapped hs va hva
    · intro va _ _ hmax hne
      simp only [true_iff]
      exact hlow va hmax hne
    · rw [hend]
      exact hfree
  · have := hfree pt (fun va _ => by rw [if_neg (by rw [show sz = 0 by omega]; simp [pgRoundUp, pgSize])])
    rwa [setTable_self h] at this

end Xv6.Kernel
