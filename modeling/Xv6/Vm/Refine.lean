import Xv6.Vm.Tree

namespace Xv6.Vm.Ram

open Lib Hoare

variable {root page p q va va' pa perm : ℕ} {l : List (Fin 512)} {s t u : Memory} {α : Type}
  {Q : α → Memory → Prop} {E : String → Prop}

theorem Keeps.refl (h : Tree s root) : Keeps s s root := ⟨h, rfl, fun _ _ _ => rfl⟩

theorem Keeps.trans (h : Keeps s t root) (h' : Keeps t u root) : Keeps s u root where
  tree := h'.tree
  kend := h'.kend.trans h.kend
  slots m k hm := (h'.slots m k hm).trans (h.slots m k hm)

section Lookup

theorem walkLoop_lookup (level : ℕ) {Q : Option ℕ → Memory → Prop}
    (hQ : Q (nodeAt s.word p (indices va level)) s) : wp (walkLoop va false level p) s Q E := by
  induction level generalizing p with
  | zero => exact hQ
  | succ level ih =>
    simp only [walkLoop, wp_bind, wp_get, wp_ite, wp_pure, Bool.false_eq_true,
      ↓reduceIte]
    rw [indices, nodeAt_cons] at hQ
    split_ifs with hv
    · apply ih
      rw [child, if_pos hv] at hQ
      exact hQ
    · rw [child, if_neg hv] at hQ
      exact hQ

theorem walk_lookup (hva : va < maxVa) {Q : Option (ℕ × Fin 512) → Memory → Prop}
    (hQ : Q ((nodeAt s.word root (indices va 2)).map (·, px 0 va)) s) :
    wp (walk root va false) s Q E := by
  rw [walk, if_neg (by omega)]
  rw [wp_bind]
  apply walkLoop_lookup
  cases hn : nodeAt s.word root (indices va 2) with
  | none =>
    rw [hn] at hQ
    exact hQ
  | some p =>
    rw [hn] at hQ
    exact hQ

theorem binding_eq (hva : va < maxVa) : binding s root va =
    (slot s.word root (indices va 2) (px 0 va)).map (fun w => (pte2pa w, pteFlags w)) := by
  have hw : walk root va false s =
      .ok ((nodeAt s.word root (indices va 2)).map (·, px 0 va), s) := by
    have hwp : wp (walk root va false) s
        (fun o t => o = (nodeAt s.word root (indices va 2)).map (·, px 0 va) ∧ t = s) (fun _ => False) :=
      walk_lookup hva ⟨rfl, rfl⟩
    obtain ⟨o, t, hrun, rfl, rfl⟩ := exists_ok hwp
    exact hrun
  rw [binding, hw]
  cases hn : nodeAt s.word root (indices va 2) with
  | none =>
    rw [slot, hn]
    rfl
  | some p =>
    rw [slot_of_nodeAt hn]
    simp only [Option.map_some]
    split_ifs <;> rfl

theorem indices_eq_iff (h : va < maxVa) (h' : va' < maxVa) :
    (indices va' 2 = indices va 2 ∧ px 0 va' = px 0 va) ↔ va' / pgSize = va / pgSize := by
  have hlt : maxVa ≤ 2 ^ 39 := by decide
  rw [← PageTable.px_eq_iff (by omega) (by omega)]
  simp only [indices, List.cons.injEq, and_true, and_assoc, zero_add, one_add_one_eq_two]

theorem Keeps.binding (h : Keeps s t root) (hva : va < maxVa) : binding t root va = binding s root va := by
  rw [binding_eq hva, binding_eq hva, h.slots _ _ (length_indices 2)]

theorem binding_setSlot (h : Tree s root) (hva : va < maxVa) (hva' : va' < maxVa)
    (hq : nodeAt s.word root (indices va 2) = some q) (w : ℕ) :
    binding (s.store q (px 0 va) w) root va' = if va' / pgSize = va / pgSize then
      (if w &&& pteV ≠ 0 then some (pte2pa w, pteFlags w) else none) else binding s root va' := by
  have hslot := (h.setSlot (length_indices 2) hq (px 0 va) w).2 (indices va' 2) (px 0 va') (length_indices 2)
  rw [binding_eq hva', hslot]
  simp only [indices_eq_iff hva hva']
  split_ifs with heq hv
  · rfl
  · rfl
  · rw [binding_eq hva']

end Lookup

section Alloc

theorem kalloc_spec {Q : Option ℕ → Memory → Prop} (hnone : Q none { s with calls := s.calls + 1 })
    (hsome : ∀ page rest, s.freelist = page :: rest → Q (some page)
      { s.fill page 0x0505050505050505 with freelist := rest, calls := s.calls + 1 }) :
    wp kalloc s Q E := by
  simp only [kalloc, wp_bind, wp_get, wp_set, wp_ite, wp_pure]
  split_ifs with hr
  · exact hnone
  · split
    · exact hnone
    · exact hsome _ _ ‹_›

theorem FreeList.tail {rest : List ℕ} (h : FreeList s) (hl : s.freelist = page :: rest)
    (hrest : t.freelist = rest) (hk : t.kend = s.kend) : FreeList t where
  nodup := by
    have hn := h.nodup
    rw [hl] at hn
    rw [hrest]
    exact (List.nodup_cons.mp hn).2
  freeable p hp := by
    rw [hrest] at hp
    rw [hk]
    apply h.freeable
    rw [hl]
    exact List.mem_cons_of_mem _ hp

theorem walkLoop_alloc (hva : va < maxVa) (level : ℕ) (h : Tree s root) (hf : FreeList s)
    (hl : l ++ indices va level = indices va 2) (hp : nodeAt s.word root l = some p) :
    wp (walkLoop va true level p) s (fun o t => Keeps s t root ∧ FreeList t ∧
      ∀ q, o = some q → nodeAt t.word root (indices va 2) = some q) E := by
  induction level generalizing s l p with
  | zero =>
    rw [indices, List.append_nil] at hl
    subst hl
    rw [walkLoop, wp_pure]
    exact ⟨Keeps.refl h, hf, fun q hq => hq ▸ hp⟩
  | succ level ih =>
    have hlen : l.length < 2 := by
      have := congrArg List.length hl
      rw [List.length_append, length_indices, length_indices] at this
      omega
    have hnext : (l ++ [px (level + 1) va]) ++ indices va level = indices va 2 := by
      rw [List.append_assoc]
      exact hl
    simp only [walkLoop, wp_bind, wp_get, wp_ite, ↓reduceIte]
    split_ifs with hv
    · apply ih h hf hnext
      rw [nodeAt_snoc, hp, Option.bind_some, child, if_pos hv]
    · have hchild : child s.word p (px (level + 1) va) = none := if_neg hv
      apply kalloc_spec
      · exact ⟨⟨⟨h.shape, h.low, h.owned⟩, rfl, fun _ _ _ => rfl⟩, ⟨hf.nodup, hf.freeable⟩, fun q hq => by cases hq⟩
      · intro page rest hlist
        simp only [wp_bind, wp_modify]
        generalize ht : ((({ s.fill page 0x0505050505050505 with
          freelist := rest, calls := s.calls + 1 } : Memory).fill page 0).store p (px (level + 1) va)
            (pa2pte page ||| pteV)) = t
        have hword : t.word = (s.link p (px (level + 1) va) page).word := by
          rw [← ht]
          simp only [Memory.link, Memory.store, Memory.fill, Function.update_idem]
        have hrest : t.freelist = rest := by rw [← ht]; rfl
        have hkend : t.kend = s.kend := by rw [← ht]; rfl
        have hlow : l = [] → (px (level + 1) va).val < 256 := by
          rintro rfl
          have hlev : level = 1 := by
            have := congrArg List.length hl
            rw [List.nil_append, length_indices, length_indices] at this
            omega
          subst hlev
          simp only [px, maxVa] at hva ⊢
          omega
        have hkeep : Keeps s t root := by
          apply h.link hf hlen hp hchild hlow hword _ hkend
          rw [hlist, hrest]
        have hfree : FreeList t := hf.tail hlist hrest hkend
        have hnode : nodeAt t.word root (l ++ [px (level + 1) va]) = some page := by
          have hmem : page ∈ s.freelist := by rw [hlist]; exact List.mem_cons_self
          rw [hword, nodeAt_link h.shape hlen hp hchild (hf.freeable page hmem), if_pos rfl]
          · exact fun m hm hm' => (h.owned m page hm hm').2 hmem
          · rw [List.length_append, List.length_singleton]
            exact hlen
        apply wp_mono (ih hkeep.tree hfree hnext hnode) _ (fun _ he => he)
        rintro o u ⟨hu, hfu, hou⟩
        exact ⟨hkeep.trans hu, hfu, hou⟩

theorem walk_alloc (hva : va < maxVa) (h : Tree s root) (hf : FreeList s) :
    wp (walk root va true) s (fun o t => Keeps s t root ∧ FreeList t ∧
      ∀ pte, o = some pte → pte.2 = px 0 va ∧ nodeAt t.word root (indices va 2) = some pte.1) E := by
  rw [walk, if_neg (by omega), wp_bind]
  apply wp_mono (walkLoop_alloc hva 2 h hf (List.nil_append _) rfl) _ (fun _ he => he)
  rintro o t ⟨ht, hft, ho⟩
  cases o with
  | none => exact ⟨ht, hft, fun _ he => nomatch he⟩
  | some q =>
    refine ⟨ht, hft, ?_⟩
    rintro _ ⟨⟩
    exact ⟨rfl, ho q rfl⟩

end Alloc

section Mappages

variable {size : ℕ}

theorem FreeList.congr (h : FreeList s) (hl : t.freelist = s.freelist) (hk : t.kend = s.kend) : FreeList t := by
  constructor
  · rw [hl]
    exact h.nodup
  · rw [hl, hk]
    exact h.freeable

theorem pgRoundDown_eq (hva : va < maxVa) (hone : (va + size - 1) / pgSize = va / pgSize) :
    pgRoundDown ((va + size - 1) % 2 ^ 64) = pgRoundDown va := by
  simp only [pgRoundDown, pgSize, maxVa] at *
  omega

theorem pgRoundDown_div : pgRoundDown va / pgSize = va / pgSize :=
  Nat.mul_div_cancel _ (by decide)

theorem pgRoundDown_lt (hva : va < maxVa) : pgRoundDown va < maxVa :=
  (Nat.div_mul_le_self _ _).trans_lt hva

theorem indices_pgRoundDown (hva : va < maxVa) :
    indices (pgRoundDown va) 2 = indices va 2 ∧ px 0 (pgRoundDown va) = px 0 va :=
  (indices_eq_iff hva (pgRoundDown_lt hva)).mpr pgRoundDown_div

theorem binding_pgRoundDown (hva : va < maxVa) : binding s root (pgRoundDown va) = binding s root va := by
  obtain ⟨hi, hp⟩ := indices_pgRoundDown hva
  rw [binding_eq hva, binding_eq (pgRoundDown_lt hva), hi, hp]

theorem binding_of_word (hva : va < maxVa) (hq : nodeAt s.word root (indices va 2) = some q) :
    binding s root va = if s.word q (px 0 va) &&& pteV ≠ 0 then
      some (pte2pa (s.word q (px 0 va)), pteFlags (s.word q (px 0 va))) else none := by
  rw [binding_eq hva, slot_of_nodeAt hq]
  split_ifs <;> rfl

theorem pte2pa_round (hpa : pa < 2 ^ 64) (h : perm < 1024) : pte2pa (pa2pte pa ||| perm) = pgRoundDown pa := by
  rw [pa2pte_or h, pte2pa, Nat.shiftRight_eq_div_pow, Nat.shiftLeft_eq, pgRoundDown, pgSize]
  omega

theorem mappages_one (h : Tree s root) (hf : FreeList s) (hva : va < maxVa) (hsize : 0 < size)
    (hone : (va + size - 1) / pgSize = va / pgSize) (hpa : pa < 2 ^ 64) (hperm : perm < 1024) :
    wp (mappages root va size pa perm) s
      (fun r t => Tree t root ∧ FreeList t ∧
        (r = 0 ∧ binding s root va = none ∧ (∀ va' < maxVa, binding t root va' =
            if va' / pgSize = va / pgSize then some (pgRoundDown pa, perm ||| pteV) else binding s root va') ∨
          r = -1 ∧ ∀ va' < maxVa, binding t root va' = binding s root va'))
      (fun e => e = "mappages: remap" ∧ binding s root va ≠ none) := by
  have hround : pgRoundDown va < maxVa := pgRoundDown_lt hva
  rw [mappages, if_neg (by omega), pgRoundDown_eq hva hone]
  rw [mapLoop, wp_bind]
  apply wp_mono (walk_alloc hround h hf) _ (fun _ he => he)
  rintro o t ⟨ht, hft, ho⟩
  cases o with
  | none => exact ⟨ht.tree, hft, Or.inr ⟨rfl, fun va' hva' => ht.binding hva'⟩⟩
  | some pte =>
    obtain ⟨q, k⟩ := pte
    obtain ⟨rfl, hq⟩ := ho _ rfl
    have hb := binding_of_word hround hq
    rw [ht.binding hround, binding_pgRoundDown hva] at hb
    simp only [load, store, wp_bind, wp_get, wp_pure, wp_ite, wp_throw,
      wp_modify, ↓reduceIte]
    split_ifs with hv
    · rw [if_pos hv] at hb
      exact ⟨trivial, by rw [hb]; exact Option.some_ne_none _⟩
    · rw [if_neg hv] at hb
      refine ⟨(ht.tree.setSlot (length_indices 2) hq _ _).1, hft.congr rfl rfl, Or.inl ⟨trivial, hb, ?_⟩⟩
      intro va' hva'
      have hflags : perm ||| pteV < 1024 := or_lt hperm
      rw [binding_setSlot ht.tree hround hva' hq, if_pos and_pteV_or, Nat.or_assoc,
        pte2pa_round hpa hflags, pteFlags_pte hflags, pgRoundDown_div, ht.binding hva']

end Mappages

section Unmap

variable {a n : ℕ} {doFree : Bool}

theorem kfree_spec {Q : Unit → Memory → Prop} (h : Freeable s.kend pa)
    (hQ : Q () { s.fill pa 0x0101010101010101 with freelist := pa :: s.freelist }) :
    wp (kfree pa) s Q E := by
  simp only [kfree, wp_bind, wp_get]
  rw [if_pos h]
  exact hQ

def Loose (s : Memory) (root pa : ℕ) : Prop :=
  Freeable s.kend pa ∧ ∀ l, l.length ≤ 2 → nodeAt s.word root l ≠ some pa

theorem Tree.kfree (h : Tree s root) (hpa : Loose s root pa) :
    Keeps s { s.fill pa 0x0101010101010101 with freelist := pa :: s.freelist } root := by
  apply Tree.frame h
  · rfl
  intro l p hl hp
  have hne : p ≠ pa := by
    rintro rfl
    exact hpa.2 l hl hp
  constructor
  · exact Function.update_of_ne hne _ _
  · intro hin
    cases List.mem_cons.mp hin with
    | inl he => exact hne he
    | inr hin => exact (h.owned l p hl hp).2 hin

theorem nodeAt_kfree (hpa : Loose s root pa) (hl : l.length ≤ 2) :
    nodeAt ({ s.fill pa 0x0101010101010101 with freelist := pa :: s.freelist } : Memory).word root l =
      nodeAt s.word root l := by
  apply nodeAt_congr _ hl
  intro m p hm hp
  apply Function.update_of_ne
  rintro rfl
  exact hpa.2 m (Nat.le_of_lt hm) hp

def Unmappable (s : Memory) (root va : ℕ) (doFree : Bool) : Prop :=
  ∃ pa flags, binding s root va = some (pa, flags) ∧ flags ≠ pteV ∧ (doFree = true → Loose s root pa)

theorem unmapLoop_spec (h : Tree s root) (ha : a % pgSize = 0) (hmax : a + n * pgSize ≤ maxVa)
    (hall : ∀ i < n, Unmappable s root (a + i * pgSize) doFree) :
    wp (unmapLoop root doFree n a) s (fun _ t => Tree t root ∧ ∀ va < maxVa,
      binding t root va = if a ≤ va ∧ va < a + n * pgSize then none else binding s root va) E := by
  induction n generalizing s a with
  | zero =>
    rw [unmapLoop, wp_pure]
    refine ⟨h, fun va _ => ?_⟩
    rw [if_neg (by omega)]
  | succ n ih =>
    have hlt : a < maxVa := by
      simp only [pgSize] at hmax
      omega
    obtain ⟨pa, flags, hb, hflags, hloose⟩ := hall 0 (Nat.succ_pos n)
    rw [Nat.zero_mul, Nat.add_zero] at hb
    rw [unmapLoop, wp_bind]
    apply walk_lookup hlt
    cases hq : nodeAt s.word root (indices a 2) with
    | none =>
      rw [binding_eq hlt, slot, hq] at hb
      cases hb
    | some q =>
      rw [binding_of_word hlt hq] at hb
      split_ifs at hb with hv
      obtain ⟨rfl, rfl⟩ := Prod.mk.inj (Option.some.inj hb)
      simp only [Option.map_some, load, wp_bind, wp_get, wp_pure]
      rw [if_neg hv, if_neg hflags]
      -- freeing the page, if asked for, leaves the page table alone
      have hfree : wp (if doFree then kfree (pte2pa (s.word q (px 0 a))) else pure ()) s
          (fun _ t => Keeps s t root ∧ ∀ l, l.length ≤ 2 → nodeAt t.word root l = nodeAt s.word root l) E := by
        split_ifs with hd
        · exact kfree_spec (hloose hd).1 ⟨h.kfree (hloose hd), fun _ => nodeAt_kfree (hloose hd)⟩
        · exact ⟨Keeps.refl h, fun _ _ => rfl⟩
      rw [wp_bind]
      apply wp_mono hfree _ (fun _ he => he)
      rintro - t ⟨ht, hnode⟩
      have hqt : nodeAt t.word root (indices a 2) = some q := (hnode _ (length_indices 2).le).trans hq
      simp only [store, wp_bind, wp_modify]
      have htree : Tree (t.store q (px 0 a) 0) root := (ht.tree.setSlot (length_indices 2) hqt _ _).1
      have hset : ∀ va < maxVa, binding (t.store q (px 0 a) 0) root va =
          if va / pgSize = a / pgSize then none else binding s root va := by
        intro va hva
        rw [binding_setSlot ht.tree hlt hva hqt, ht.binding hva, Nat.zero_and]
        rfl
      have hrest : ∀ i < n, Unmappable (t.store q (px 0 a) 0) root (a + pgSize + i * pgSize) doFree := by
        intro i hi
        have hne : (a + pgSize + i * pgSize) / pgSize ≠ a / pgSize := by
          simp only [pgSize]
          omega
        have hin : a + pgSize + i * pgSize < maxVa := by
          simp only [pgSize] at *
          omega
        obtain ⟨pa, flags, hb, hfl, hlo⟩ := hall (i + 1) (by omega)
        have haddr : a + (i + 1) * pgSize = a + pgSize + i * pgSize := by
          simp only [pgSize]
          omega
        rw [haddr] at hb
        refine ⟨pa, flags, ?_, hfl, fun hd => ?_⟩
        · rw [hset _ hin, if_neg hne, hb]
        · obtain ⟨hfr, hno⟩ := hlo hd
          refine ⟨ht.kend ▸ hfr, fun l hl => ?_⟩
          rw [ht.tree.nodeAt_store (length_indices 2) hqt _ _ hl, hnode l hl]
          exact hno l hl
      have ha' : (a + pgSize) % pgSize = 0 := by rw [Nat.add_mod_right, ha]
      have hmax' : a + pgSize + n * pgSize ≤ maxVa := by
        simp only [pgSize] at *
        omega
      apply wp_mono (ih htree ha' hmax' hrest) _ (fun _ he => he)
      rintro - u ⟨hu, hbind⟩
      refine ⟨hu, fun va hva => ?_⟩
      rw [hbind va hva, hset va hva]
      have hsplit : (a ≤ va ∧ va < a + (n + 1) * pgSize) ↔
          ((a + pgSize ≤ va ∧ va < a + pgSize + n * pgSize) ∨ va / pgSize = a / pgSize) := by
        simp only [pgSize] at *
        omega
      by_cases hpage : va / pgSize = a / pgSize
      · rw [if_pos hpage, ite_self, if_pos (hsplit.mpr (Or.inr hpage))]
      · by_cases hr : a + pgSize ≤ va ∧ va < a + pgSize + n * pgSize
        · rw [if_pos hr, if_pos (hsplit.mpr (Or.inl hr))]
        · rw [if_neg hr, if_neg hpage, if_neg]
          exact fun hin => (hsplit.mp hin).elim hr hpage

end Unmap

section Freewalk

variable {d depth : ℕ} {freed : List ℕ}

def IsNode (word : ℕ → Fin 512 → ℕ) (root d p : ℕ) : Prop := ∃ l, l.length ≤ d ∧ nodeAt word root l = some p

def IsBelow (word : ℕ → Fin 512 → ℕ) (root d : ℕ) (done : List (Fin 512)) (p : ℕ) : Prop :=
  ∃ i ∈ done, ∃ l, l.length < d ∧ nodeAt word root (i :: l) = some p

structure Frees (s t : Memory) (freed : List ℕ) : Prop where
  list : t.freelist = freed ++ s.freelist
  nodup : freed.Nodup
  kend : t.kend = s.kend

theorem isNode_succ {word : ℕ → Fin 512 → ℕ} :
    IsNode word root d p ↔ p = root ∨ IsBelow word root d entries p := by
  constructor
  · rintro ⟨l, hl, hp⟩
    cases l with
    | nil => exact Or.inl (Option.some.inj hp).symm
    | cons i l => exact Or.inr ⟨i, mem_entries i, l, hl, hp⟩
  · rintro (rfl | ⟨i, -, l, hl, hp⟩)
    · exact ⟨[], Nat.zero_le _, rfl⟩
    · exact ⟨i :: l, hl, hp⟩

theorem isBelow_append {word : ℕ → Fin 512 → ℕ} {done : List (Fin 512)} {i : Fin 512} :
    IsBelow word root d (done ++ [i]) p ↔
      IsBelow word root d done p ∨ ∃ l, l.length < d ∧ nodeAt word root (i :: l) = some p := by
  constructor
  · rintro ⟨j, hj, hl⟩
    cases List.mem_append.mp hj with
    | inl hj => exact Or.inl ⟨j, hj, hl⟩
    | inr hj => exact Or.inr (List.mem_singleton.mp hj ▸ hl)
  · rintro (⟨j, hj, hl⟩ | hl)
    · exact ⟨j, List.mem_append_left _ hj, hl⟩
    · exact ⟨i, List.mem_append_right _ (List.mem_singleton_self i), hl⟩

def Partly (s : Memory) (root d : ℕ) (done : List (Fin 512)) (t : Memory) : Prop :=
  ∃ freed, Frees s t freed ∧ (∀ p, p ∈ freed ↔ IsBelow s.word root d done p) ∧
    (∀ p, p ∉ freed → p ≠ root → t.word p = s.word p) ∧ ∀ i, i ∉ done → t.word root i = s.word root i

theorem freeEntry_invalid {f : ℕ → VmM Unit} {i : Fin 512} {Q : Unit → Memory → Prop}
    (hv : s.word root i &&& pteV = 0) (hQ : Q () s) : wp (freeEntry f root i) s Q E := by
  simp only [freeEntry, wp_bind, wp_get]
  rw [if_neg (fun hc => hc.1 hv), if_neg (not_not.mpr hv)]
  exact hQ

theorem freeEntry_pointer {f : ℕ → VmM Unit} {i : Fin 512} {Q : Unit → Memory → Prop}
    (hv : s.word root i &&& pteV ≠ 0) (hrwx : s.word root i &&& (pteR ||| pteW ||| pteX) = 0)
    (hf : wp (f (pte2pa (s.word root i))) s (fun _ t => Q () (t.store root i 0)) E) :
    wp (freeEntry f root i) s Q E := by
  simp only [freeEntry, wp_bind, wp_get]
  rw [if_pos ⟨hv, hrwx⟩, wp_bind]
  exact hf

theorem Partly.skip {done : List (Fin 512)} {i : Fin 512} (h : Partly s root d done t)
    (hv : s.word root i &&& pteV = 0) : Partly s root d (done ++ [i]) t := by
  obtain ⟨freed, hfr, hmem, hword, hroot⟩ := h
  refine ⟨freed, hfr, fun p => ?_, hword, fun j hj => hroot j (fun hin => hj (List.mem_append_left _ hin))⟩
  rw [hmem, isBelow_append, or_iff_left]
  rintro ⟨l, -, hp⟩
  rw [nodeAt_cons, child_eq_none hv] at hp
  cases hp

section Subtree

variable {done : List (Fin 512)} {i : Fin 512}

theorem Partly.word_below (hp : Partly s root (d + 1) done t) (h : Shape s.word root (d + 1)) (hi : i ∉ done)
    (hl : l.length ≤ d) (hq : nodeAt s.word root (i :: l) = some q) : t.word q = s.word q := by
  obtain ⟨freed, -, hmem, hword, -⟩ := hp
  apply hword
  · rw [hmem]
    rintro ⟨j, hj, m, hm, hjq⟩
    exact hi (h.index_eq (Nat.lt_succ_of_le hl) hm hq hjq ▸ hj)
  · exact h.ne_root (Nat.lt_succ_of_le hl) hq

theorem Partly.nodeAt_below (hp : Partly s root (d + 1) done t) (h : Shape s.word root (d + 1)) (hi : i ∉ done)
    (hc : child s.word root i = some p) (hl : l.length ≤ d) : nodeAt t.word p l = nodeAt s.word p l := by
  apply nodeAt_congr _ hl
  intro m q hm hq
  apply hp.word_below h hi (Nat.le_of_lt hm)
  rw [nodeAt_cons, hc, Option.bind_some]
  exact hq

theorem Partly.free {freed' : List ℕ} (hp : Partly s root (d + 1) done t) (h : Shape s.word root (d + 1))
    (hi : i ∉ done) (hc : child s.word root i = some p) (hfr : Frees t u freed')
    (hmem : ∀ q, q ∈ freed' ↔ IsNode s.word p d q) (hword : ∀ q, q ∉ freed' → u.word q = t.word q) :
    Partly s root (d + 1) (done ++ [i]) (u.store root i 0) := by
  have hcons : ∀ m, nodeAt s.word root (i :: m) = nodeAt s.word p m := by
    intro m
    rw [nodeAt_cons, hc, Option.bind_some]
  have hnode : ∀ q, IsNode s.word p d q ↔ ∃ l, l.length < d + 1 ∧ nodeAt s.word root (i :: l) = some q := by
    intro q
    simp only [IsNode, hcons, Nat.lt_succ_iff]
  have hroot : root ∉ freed' := by
    rw [hmem, hnode]
    rintro ⟨m, hm, hr⟩
    exact h.ne_root hm hr rfl
  obtain ⟨freed, hfreed, hbelow, hsame, hrest⟩ := hp
  refine ⟨freed' ++ freed, ⟨?_, ?_, hfr.kend.trans hfreed.kend⟩, ?_, ?_, ?_⟩
  · show u.freelist = _
    rw [hfr.list, hfreed.list, List.append_assoc]
  · -- a page below `i` and a page below an earlier entry are different
    apply List.Nodup.append hfr.nodup hfreed.nodup
    intro q hq hq'
    obtain ⟨m, hm, him⟩ := (hnode q).mp ((hmem q).mp hq)
    obtain ⟨j, hj, m', hm', hjm⟩ := (hbelow q).mp hq'
    exact hi (h.index_eq hm hm' him hjm ▸ hj)
  · intro q
    rw [List.mem_append, hmem, hbelow, isBelow_append, hnode, or_comm]
  · intro q hq hne
    rw [List.mem_append, not_or] at hq
    rw [show (u.store root i 0).word q = u.word q from Function.update_of_ne hne _ _, hword q hq.1,
      hsame q hq.2 hne]
  · intro j hj
    rw [List.mem_append, List.mem_singleton, not_or] at hj
    simp only [Memory.store, Function.update_self]
    rw [Function.update_of_ne hj.2, hword root hroot, hrest j hj.1]

theorem freewalk_of_loop (h : Shape s.word root d) (hfree : Freeable s.kend root)
    (hstep : ∀ done i, i ∉ done → ∀ t, Partly s root d done t →
      wp (freeEntry (freewalk depth) root i) t (fun _ => Partly s root d (done ++ [i])) E) :
    wp (freewalk (depth + 1) root) s (fun _ t => ∃ freed, Frees s t freed ∧
      (∀ p, p ∈ freed ↔ IsNode s.word root d p) ∧ ∀ p, p ∉ freed → t.word p = s.word p) E := by
  have hloop : wp (entries.forM (freeEntry (freewalk depth) root)) s
      (fun _ => Partly s root d entries) E := by
    apply wp_forM
    · refine ⟨[], ⟨rfl, List.nodup_nil, rfl⟩, fun p => ?_, fun _ _ _ => rfl, fun _ _ => rfl⟩
      simp [IsBelow]
    · intro done i rest he t ht
      apply hstep done i _ t ht
      have hn := nodup_entries
      rw [he, List.nodup_append] at hn
      exact fun hin => hn.2.2 i hin i List.mem_cons_self rfl
  rw [freewalk, wp_bind]
  apply wp_mono hloop _ (fun _ he => he)
  rintro - t ⟨freed, hfr, hmem, hword, -⟩
  apply kfree_spec
  · rw [hfr.kend]
    exact hfree
  · refine ⟨root :: freed, ⟨?_, ?_, hfr.kend⟩, ?_, ?_⟩
    · rw [List.cons_append, ← hfr.list]
    · apply List.nodup_cons.mpr ⟨_, hfr.nodup⟩
      rw [hmem]
      rintro ⟨i, -, l, hl, hr⟩
      exact h.ne_root hl hr rfl
    · intro p
      rw [List.mem_cons, hmem, isNode_succ]
    · intro p hp
      rw [List.mem_cons, not_or] at hp
      exact (Function.update_of_ne hp.1 _ _).trans (hword p hp.2 hp.1)

end Subtree

theorem freewalk_spec (hdepth : d < depth) (h : Shape s.word root d)
    (hfree : ∀ p, IsNode s.word root d p → Freeable s.kend p)
    (hleaf : ∀ l k, l.length = d → slot s.word root l k = none) :
    wp (freewalk depth root) s (fun _ t => ∃ freed, Frees s t freed ∧
      (∀ p, p ∈ freed ↔ IsNode s.word root d p) ∧ ∀ p, p ∉ freed → t.word p = s.word p) E := by
  induction d generalizing depth s root with
  | zero =>
    cases depth with
    | zero => omega
    | succ depth =>
      apply freewalk_of_loop h (hfree root ⟨[], Nat.zero_le 0, rfl⟩)
      intro done i hi t ht
      have hv : s.word root i &&& pteV = 0 := by
        have hslot := hleaf [] i rfl
        rw [slot_of_nodeAt nodeAt_nil] at hslot
        by_contra hne
        rw [if_pos hne] at hslot
        cases hslot
      apply freeEntry_invalid _ (ht.skip hv)
      rw [ht.choose_spec.2.2.2 i hi]
      exact hv
  | succ d ih =>
    cases depth with
    | zero => omega
    | succ depth =>
      apply freewalk_of_loop h (hfree root ⟨[], Nat.zero_le _, rfl⟩)
      intro done i hi t ht
      have hti : t.word root i = s.word root i := ht.choose_spec.2.2.2 i hi
      by_cases hv : s.word root i &&& pteV = 0
      · apply freeEntry_invalid _ (ht.skip hv)
        rw [hti]
        exact hv
      · have hc : child s.word root i = some (pte2pa (s.word root i)) := if_pos hv
        have hcons : ∀ m, nodeAt s.word root (i :: m) = nodeAt s.word (pte2pa (s.word root i)) m := by
          intro m
          rw [nodeAt_cons, hc, Option.bind_some]
        have hsub : ∀ l q, l.length ≤ d → nodeAt s.word (pte2pa (s.word root i)) l = some q →
            t.word q = s.word q := fun l q hl hq => ht.word_below h hi hl ((hcons l).trans hq)
        have hnode : ∀ q, IsNode t.word (pte2pa (s.word root i)) d q ↔
            IsNode s.word (pte2pa (s.word root i)) d q := by
          intro q
          apply exists_congr
          intro l
          apply and_congr_right
          intro hl
          rw [ht.nodeAt_below h hi hc hl]
        apply freeEntry_pointer
        · rw [hti]
          exact hv
        · rw [hti]
          exact h.pointer [] root i (Nat.succ_pos d) rfl hv
        · rw [hti]
          have hfree' : ∀ q, IsNode t.word (pte2pa (s.word root i)) d q → Freeable t.kend q := by
            intro q hq
            obtain ⟨l, hl, hlq⟩ := (hnode q).mp hq
            rw [ht.choose_spec.1.kend]
            exact hfree q ⟨i :: l, Nat.succ_le_succ hl, (hcons l).trans hlq⟩
          have hleaf' : ∀ l k, l.length = d → slot t.word (pte2pa (s.word root i)) l k = none := by
            intro l k hl
            have hslot := hleaf (i :: l) k (congrArg Nat.succ hl)
            rw [slot, hcons] at hslot
            rw [slot, ht.nodeAt_below h hi hc hl.le]
            cases hq : nodeAt s.word (pte2pa (s.word root i)) l with
            | none => rfl
            | some q =>
              rw [hq] at hslot
              rw [Option.bind_some, hsub l q hl.le hq]
              exact hslot
          apply wp_mono (ih (by omega) ((h.sub hc).congr hsub) hfree' hleaf') _ (fun _ he => he)
          rintro - u ⟨freed, hfr, hmem, hword⟩
          exact ht.free h hi hc hfr (fun q => (hmem q).trans (hnode q)) hword

end Freewalk

section Create

theorem nodeAt_of_zero {word : ℕ → Fin 512 → ℕ} (h : word root = fun _ => 0) :
    nodeAt word root l = some p ↔ l = [] ∧ p = root := by
  cases l with
  | nil => simp [eq_comm]
  | cons i l =>
    have hc : child word root i = none := child_eq_none (by rw [h, Nat.zero_and])
    simp [nodeAt_cons, hc]

theorem Tree.of_zero (h : s.word root = fun _ => 0) (hf : Freeable s.kend root) (hfree : root ∉ s.freelist) :
    Tree s root where
  shape := by
    constructor
    · intro l m p _ _ hl hm
      rw [((nodeAt_of_zero h).mp hl).1, ((nodeAt_of_zero h).mp hm).1]
    · intro l p i _ hl hv
      rw [((nodeAt_of_zero h).mp hl).2, h, Nat.zero_and] at hv
      exact absurd rfl hv
  low i _ := child_eq_none (by rw [h, Nat.zero_and])
  owned l p _ hl := by
    rw [((nodeAt_of_zero h).mp hl).2]
    exact ⟨hf, hfree⟩

theorem binding_of_zero (h : s.word root = fun _ => 0) (hva : va < maxVa) : binding s root va = none := by
  have hn : nodeAt s.word root (indices va 2) = none := by
    cases hp : nodeAt s.word root (indices va 2) with
    | none => rfl
    | some p => cases ((nodeAt_of_zero h).mp hp).1
  rw [binding_eq hva, slot, hn]
  rfl

theorem uvmcreate_spec (hf : FreeList s) :
    wp uvmcreate s (fun o t => FreeList t ∧ ∀ root, o = some root → Tree t root ∧
      ∀ va < maxVa, binding t root va = none) E := by
  rw [uvmcreate, wp_bind]
  apply kalloc_spec
  · exact ⟨hf.congr rfl rfl, fun _ he => nomatch he⟩
  · intro page rest hl
    have hzero : (({ s.fill page 0x0505050505050505 with
        freelist := rest, calls := s.calls + 1 } : Memory).fill page 0).word page = fun _ => 0 :=
      Function.update_self _ _ _
    simp only [wp_bind, wp_modify, wp_pure]
    refine ⟨hf.tail hl rfl rfl, ?_⟩
    rintro _ ⟨⟩
    refine ⟨Tree.of_zero hzero ?_ ?_, fun va hva => binding_of_zero hzero hva⟩
    · apply hf.freeable
      rw [hl]
      exact List.mem_cons_self
    · have hn := hf.nodup
      rw [hl] at hn
      exact (List.nodup_cons.mp hn).1

end Create

theorem Tree.no_slot (h : Tree s root) (hb : ∀ va < maxVa, binding s root va = none) (l : List (Fin 512))
    (k : Fin 512) (hl : l.length = 2) : slot s.word root l k = none := by
  obtain ⟨i, j, rfl⟩ := List.length_eq_two.mp hl
  by_cases hi : 256 ≤ i.val
  · rw [slot, nodeAt_cons, h.low i hi]
    rfl
  · obtain ⟨hpi, hpj, hpk⟩ := PageTable.px_vaOf i j k
    have hva : PageTable.vaOf i j k < maxVa := by
      simp only [PageTable.vaOf, pgSize, maxVa]
      omega
    have hind : indices (PageTable.vaOf i j k) 2 = [i, j] := by
      simp only [indices, zero_add, one_add_one_eq_two, hpi, hpj]
    have hnone := hb _ hva
    rw [binding_eq hva, hind, hpk, Option.map_eq_none_iff] at hnone
    exact hnone

theorem walkaddr_spec : wp (walkaddr root va) s (fun r t => t = s ∧ r = match binding s root va with
    | some (pa, flags) => if flags &&& pteU ≠ 0 then pa else 0
    | none => 0) E := by
  by_cases hva : va < maxVa
  · rw [walkaddr, if_neg (by omega), wp_bind]
    apply walk_lookup hva
    cases hq : nodeAt s.word root (indices va 2) with
    | none =>
      rw [binding_eq hva, slot, hq]
      exact ⟨rfl, rfl⟩
    | some q =>
      rw [binding_of_word hva hq]
      simp only [Option.map_some, load, wp_bind, wp_get, wp_pure, wp_ite]
      by_cases hv : s.word q (px 0 va) &&& pteV = 0
      · simp [hv]
      · have hflags : pteFlags (s.word q (px 0 va)) &&& pteU = s.word q (px 0 va) &&& pteU :=
          pteFlags_and (by decide)
        rw [if_neg hv, if_pos hv]
        by_cases hu : s.word q (px 0 va) &&& pteU = 0
        · simp [hflags, hu]
        · simp [hflags, hu]
  · have hw : walk root va false = throw "walk" := if_pos (by omega)
    rw [walkaddr, if_pos (by omega), binding, hw]
    exact ⟨rfl, rfl⟩

/-- A page table is a partial map from pages to physical pages and flags, through every operation. -/
theorem page_table_refines_map (h : Tree s root) (hf : FreeList s) :
    (∀ va size pa perm, va < maxVa → 0 < size → (va + size - 1) / pgSize = va / pgSize → pa < 2 ^ 64 →
      perm < 1024 → wp (mappages root va size pa perm) s
        (fun r t => Tree t root ∧ FreeList t ∧
          (r = 0 ∧ binding s root va = none ∧ (∀ va' < maxVa, binding t root va' =
              if va' / pgSize = va / pgSize then some (pgRoundDown pa, perm ||| pteV) else binding s root va') ∨
            r = -1 ∧ ∀ va' < maxVa, binding t root va' = binding s root va'))
        (fun e => e = "mappages: remap" ∧ binding s root va ≠ none)) ∧
    (∀ va n doFree, va % pgSize = 0 → va + n * pgSize ≤ maxVa →
      (∀ i < n, Unmappable s root (va + i * pgSize) doFree) →
      wp (uvmunmap root va n doFree) s
        (fun _ t => Tree t root ∧ ∀ va' < maxVa, binding t root va' =
          if va ≤ va' ∧ va' < va + n * pgSize then none else binding s root va')
        (fun _ => False)) ∧
    (∀ va < maxVa, wp (walk root va true) s
      (fun _ t => Tree t root ∧ FreeList t ∧ ∀ va' < maxVa, binding t root va' = binding s root va')
      (fun _ => False)) ∧
    (∀ va, wp (walkaddr root va) s
      (fun r t => t = s ∧ r = match binding s root va with
        | some (pa, flags) => if flags &&& pteU ≠ 0 then pa else 0
        | none => 0)
      (fun _ => False)) ∧
    ((∀ va < maxVa, binding s root va = none) → ∀ depth ≥ 3, wp (freewalk depth root) s
      (fun _ t => ∃ freed, t.freelist = freed ++ s.freelist ∧ freed.Nodup ∧
        ∀ p, p ∈ freed ↔ ∃ l, l.length ≤ 2 ∧ nodeAt s.word root l = some p)
      (fun _ => False)) := by
  refine ⟨?_, ?_, ?_, ?_, ?_⟩
  · intro va size pa perm hva hsize hone hpa hperm
    exact mappages_one h hf hva hsize hone hpa hperm
  · intro va n doFree ha hmax hall
    rw [uvmunmap, if_neg (not_not.mpr ha)]
    exact unmapLoop_spec h ha hmax hall
  · intro va hva
    apply wp_mono (walk_alloc hva h hf) _ (fun _ he => he)
    rintro o t ⟨ht, hft, -⟩
    exact ⟨ht.tree, hft, fun va' hva' => ht.binding hva'⟩
  · intro va
    exact walkaddr_spec
  · intro hb depth hdepth
    have hfree : ∀ p, IsNode s.word root 2 p → Freeable s.kend p := by
      rintro p ⟨l, hl, hp⟩
      exact (h.owned l p hl hp).1
    apply wp_mono (freewalk_spec (by omega) h.shape hfree (h.no_slot hb)) _ (fun _ he => he)
    rintro - t ⟨freed, hfr, hmem, -⟩
    exact ⟨freed, hfr.list, hfr.nodup, hmem⟩

def emptyMemory : Memory where
  word _ _ := 0
  freelist := [0x80021000, 0x80022000, 0x80023000]
  kend := 0x80020000
  refuse _ := false
  calls := 0

theorem mapped_page_is_bound : ∃ t, mappages 0x80020000 0x1000 pgSize 0x80024000 (pteR ||| pteU) emptyMemory =
      .ok (0, t) ∧ binding t 0x80020000 0x1000 = some (0x80024000, pteR ||| pteU ||| pteV) ∧
      binding t 0x80020000 0x2000 = none := by
  have htree : Tree emptyMemory 0x80020000 := Tree.of_zero rfl (by decide) (by decide)
  have hfree : FreeList emptyMemory := ⟨by decide, by decide⟩
  have hmap := (page_table_refines_map htree hfree).1 0x1000 pgSize 0x80024000 (pteR ||| pteU) (by decide)
    (by decide) (by decide) (by decide) (by decide)
  have hrun : ∃ t, mappages 0x80020000 0x1000 pgSize 0x80024000 (pteR ||| pteU) emptyMemory = .ok (0, t) :=
    ⟨_, rfl⟩
  obtain ⟨t, ht⟩ := hrun
  obtain ⟨-, -, ⟨-, -, hbind⟩ | ⟨hr, -⟩⟩ := wp_ok hmap ht
  · refine ⟨t, ht, (hbind 0x1000 (by decide)).trans (by decide), ?_⟩
    rw [hbind 0x2000 (by decide), if_neg (by decide)]
    exact binding_of_zero rfl (by decide)
  · exact absurd hr (by decide)

end Xv6.Vm.Ram
